import ContextFree.Grammar.Equiv
import ContextFree.Proofs.Snapshots

/-!
The stages in front of the last one treat grammars alike that differ in order only. Each of them has
a description by the alternatives of the nonterminals, in which no order occurs.
-/

namespace ContextFree

/-- The variants of an alternative depend on which nonterminals are nullable, not on how they are
listed. -/
theorem Alternative.variants_congr {nullable nullable' : List Name}
    (h : SameMembers nullable nullable') (alternative : Alternative) :
    alternative.variants nullable = alternative.variants nullable' := by
  have hknown (s : Symbol) : s.isKnown false nullable = s.isKnown false nullable' := by
    cases s with
    | terminal a => rfl
    | nonterminal a => simp [Symbol.isKnown, List.contains_eq_mem, h.mem_iff]
  induction alternative with
  | nil => rfl
  | cons s rest ih => rw [variants, variants, ih, hknown]

namespace Grammar

variable {g h : Grammar}

theorem Equiv.mem_alternatives_iff (e : g.Equiv h) {a : Name} {alternative : Alternative} :
    alternative ∈ g.alternatives a ↔ alternative ∈ h.alternatives a := by
  obtain ⟨_, _, _, hnames, hsame⟩ := e
  by_cases ha : a ∈ g.ruleNames
  · exact (hsame a ha).mem_iff alternative
  · have ha' : a ∉ h.ruleNames := fun hmem => ha (hnames.2 a hmem)
    rw [alternatives_eq_nil ha, alternatives_eq_nil ha']

/-- Where the rules are those of the nonterminals, their names need no comparison. -/
theorem equiv_of_alternatives (hg : g.WellFormed) (hh : h.WellFormed) (hstart : g.start = h.start)
    (hterminals : SameMembers g.terminals h.terminals)
    (hnonterminals : SameMembers g.nonterminals h.nonterminals)
    (halternatives : ∀ a alternative,
      alternative ∈ g.alternatives a ↔ alternative ∈ h.alternatives a) : g.Equiv h := by
  refine ⟨hstart, hterminals, hnonterminals, ?_, fun a _ => ⟨?_, ?_⟩⟩
  · rwa [hg.ruleNames_eq, hh.ruleNames_eq]
  · exact fun alternative => (halternatives a alternative).mp
  · exact fun alternative => (halternatives a alternative).mpr

namespace Equiv

theorem derives_iff (e : g.Equiv h) {xs : List Symbol} {w : List Name} :
    Derives g xs w ↔ Derives h xs w := by
  constructor
  · exact Derives.mono fun a _ => e.mem_alternatives_iff.mp
  · exact Derives.mono fun a _ => e.mem_alternatives_iff.mpr

theorem isNormal_eq (hg : g.WellFormed) (hh : h.WellFormed) (e : g.Equiv h) :
    g.isNormal = h.isNormal := by
  rw [Bool.eq_iff_iff, isNormal_iff, isNormal_iff, forall_alternatives_iff hg,
    forall_alternatives_iff hh]
  simp only [e.mem_alternatives_iff]

theorem nullable (hg : g.WellFormed) (hh : h.WellFormed) (e : g.Equiv h) :
    SameMembers g.nullable h.nullable := by
  refine .of_iff fun a => ?_
  rw [mem_nullable_iff hg.nodup_ruleNames, mem_nullable_iff hh.nodup_ruleNames]
  exact e.derives_iff

theorem withoutEpsilon (hg : g.WellFormed) (hh : h.WellFormed) (e : g.Equiv h) :
    g.withoutEpsilon.Equiv h.withoutEpsilon := by
  refine equiv_of_alternatives hg.withoutEpsilon hh.withoutEpsilon e.1 e.2.1 e.2.2.1 ?_
  intro a alternative
  simp only [mem_alternatives_withoutEpsilon, e.mem_alternatives_iff,
    Alternative.variants_congr (e.nullable hg hh)]

theorem inherits_iff (e : g.Equiv h) {a : Name} {alternative : Alternative} :
    g.Inherits a alternative ↔ h.Inherits a alternative := by
  have hrenames : g.Renames = h.Renames :=
    funext₂ fun _ _ => propext e.mem_alternatives_iff
  simp only [Inherits, hrenames, e.mem_alternatives_iff]

theorem withoutRenamings (hg : g.WellFormed) (hh : h.WellFormed) (e : g.Equiv h) :
    g.withoutRenamings.Equiv h.withoutRenamings := by
  have hstart (k : Grammar) : k.withoutRenamings.start = k.start :=
    (keeps_withoutRenamings k).start_eq
  have hterminals (k : Grammar) : k.withoutRenamings.terminals = k.terminals :=
    (keeps_withoutRenamings k).terminals_eq
  apply equiv_of_alternatives hg.withoutRenamings hh.withoutRenamings
  · rw [hstart, hstart, e.1]
  · rw [hterminals, hterminals]
    exact e.2.1
  · rw [nonterminals_withoutRenamings, nonterminals_withoutRenamings]
    exact e.2.2.1
  · intro a alternative
    rw [mem_alternatives_withoutRenamings, mem_alternatives_withoutRenamings, e.inherits_iff]

theorem unreachable (hg : g.WellFormed) (hh : h.WellFormed) (e : g.Equiv h) :
    SameMembers g.unreachable h.unreachable := by
  have hmentions : g.Mentions = h.Mentions := by
    funext a b
    simp only [Mentions, e.mem_alternatives_iff]
  refine .of_iff fun a => ?_
  rw [mem_unreachable_iff hg, mem_unreachable_iff hh, hmentions, e.1, e.2.2.1.mem_iff]

theorem withoutUnreachable (hg : g.WellFormed) (hh : h.WellFormed) (e : g.Equiv h) :
    g.withoutUnreachable.Equiv h.withoutUnreachable := by
  have hsame := e.unreachable hg hh
  refine equiv_of_alternatives hg.withoutUnreachable hh.withoutUnreachable e.1 e.2.1
    (.of_iff fun a => ?_) fun a alternative => ?_
  · simp only [mem_nonterminals_withoutUnreachable, hsame.mem_iff, e.2.2.1.mem_iff]
  · simp only [mem_alternatives_withoutUnreachable, hsame.mem_iff, e.mem_alternatives_iff]

theorem mem_productive_iff (hg : g.WellFormed) (hh : h.WellFormed) (e : g.Equiv h) {a : Name} :
    a ∈ g.productive ↔ a ∈ h.productive := by
  rw [Grammar.mem_productive_iff hg.nodup_ruleNames, Grammar.mem_productive_iff hh.nodup_ruleNames]
  exact exists_congr fun w => e.derives_iff

theorem unproductive (hg : g.WellFormed) (hh : h.WellFormed) (e : g.Equiv h) :
    SameMembers g.unproductive h.unproductive := by
  refine .of_iff fun a => ?_
  simp only [Grammar.unproductive, mem_outside, e.1, e.2.2.1.mem_iff, e.mem_productive_iff hg hh]

theorem withoutUnproductive (hg : g.WellFormed) (hh : h.WellFormed) (e : g.Equiv h) :
    g.withoutUnproductive.Equiv h.withoutUnproductive := by
  have hsame := e.unproductive hg hh
  have hknown : (· ∈ g.productive) = (· ∈ h.productive) :=
    funext fun a => propext (e.mem_productive_iff hg hh)
  refine equiv_of_alternatives ((keeps_withoutUnproductive g).wellFormed hg)
    ((keeps_withoutUnproductive h).wellFormed hh) e.1 e.2.1 (.of_iff fun a => ?_)
    fun a alternative => ?_
  · simp only [mem_nonterminals_withoutUnproductive, hsame.mem_iff, e.2.2.1.mem_iff]
  · simp only [mem_alternatives_withoutUnproductive, hsame.mem_iff, e.mem_alternatives_iff,
      Alternative.isKnown_iff, hknown]

theorem pruned (hg : g.WellFormed) (hh : h.WellFormed) (e : g.Equiv h) :
    g.pruned.Equiv h.pruned := by
  have hepsilon := e.withoutEpsilon hg hh
  have hrenamings := hepsilon.withoutRenamings hg.withoutEpsilon hh.withoutEpsilon
  have hreached := hrenamings.withoutUnreachable hg.withoutEpsilon.withoutRenamings
    hh.withoutEpsilon.withoutRenamings
  exact hreached.withoutUnproductive hg.withoutEpsilon.withoutRenamings.withoutUnreachable
    hh.withoutEpsilon.withoutRenamings.withoutUnreachable

end Equiv

end Grammar

end ContextFree

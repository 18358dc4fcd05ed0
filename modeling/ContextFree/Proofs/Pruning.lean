import ContextFree.Grammar.WellFormed
import ContextFree.Proofs.Discovery
import ContextFree.Proofs.Saturation

/-!
Taking useless nonterminals out. What no chain from the start symbol mentions cannot be met by the
derivations that are left, and what derives no sentence is part of no derivation at all.
-/

namespace ContextFree

namespace Grammar

variable {g : Grammar}

theorem mem_nonterminals_of_generates (hg : g.WellFormed) {a : Name} {w : List Name}
    (h : g.Generates a w) : a ∈ g.nonterminals := by
  obtain ⟨alternative, ha, _⟩ := generates_iff.mp h
  exact hg.mem_nonterminals ha

theorem mem_nonterminals_of_chain (hg : g.WellFormed) {a b : Name} (ha : a ∈ g.nonterminals)
    (hab : Relation.ReflTransGen g.Mentions a b) : b ∈ g.nonterminals := by
  induction hab with
  | refl => exact ha
  | tail _ hbc _ =>
    obtain ⟨alternative, hmem, hc⟩ := hbc
    exact hg.hasSymbol_of_mem hmem hc

theorem mem_unreachable_iff (hg : g.WellFormed) {a : Name} :
    a ∈ g.unreachable ↔
      a ∈ g.nonterminals ∧ ¬ Relation.ReflTransGen g.Mentions g.start a := by
  rw [unreachable, mem_outside, mem_reachable_iff hg.nodup_ruleNames, hg.ruleNames_eq]
  constructor
  · intro h'
    obtain ⟨ha, _, hnot⟩ := h'
    exact ⟨ha, fun hchain => hnot ⟨ha, hchain⟩⟩
  · intro h'
    obtain ⟨ha, hnot⟩ := h'
    have hne : a ≠ g.start := by
      rintro rfl
      exact hnot .refl
    exact ⟨ha, hne, fun h => hnot h.2⟩

theorem mem_nonterminals_restrict {names : List Name} {a : Name} :
    a ∈ (g.restrict names).nonterminals ↔ a ∈ g.nonterminals ∧ a ∉ g.outside names := by
  simp [restrict, without]

theorem mem_nonterminals_withoutUnreachable {a : Name} :
    a ∈ g.withoutUnreachable.nonterminals ↔ a ∈ g.nonterminals ∧ a ∉ g.unreachable :=
  mem_nonterminals_restrict

theorem mem_nonterminals_withoutUnproductive {a : Name} :
    a ∈ g.withoutUnproductive.nonterminals ↔ a ∈ g.nonterminals ∧ a ∉ g.unproductive :=
  mem_nonterminals_restrict

/-- What was taken out and what was left make up the nonterminals. -/
theorem outside_eq_filter (g : Grammar) (names : List Name) :
    g.outside names = g.nonterminals.filter (!(g.restrict names).nonterminals.contains ·) := by
  apply List.filter_congr
  intro a ha
  rw [Bool.eq_iff_iff]
  simp only [List.contains_eq_mem, mem_nonterminals_restrict, mem_outside]
  simp [ha]

/-- The nonterminals that are left are those that a chain leads to from the start symbol. -/
theorem mem_nonterminals_withoutUnreachable_iff (hg : g.WellFormed) {a : Name} :
    a ∈ g.withoutUnreachable.nonterminals ↔ Relation.ReflTransGen g.Mentions g.start a := by
  rw [mem_nonterminals_withoutUnreachable, mem_unreachable_iff hg]
  constructor
  · intro h'
    obtain ⟨ha, hstays⟩ := h'
    by_contra hnot
    exact hstays ⟨ha, hnot⟩
  · intro h
    exact ⟨mem_nonterminals_of_chain hg hg.start_mem h, fun hout => hout.2 h⟩

theorem mem_alternatives_withoutUnreachable {a : Name} {alternative : Alternative} :
    alternative ∈ g.withoutUnreachable.alternatives a ↔
      a ∉ g.unreachable ∧ alternative ∈ g.alternatives a := mem_alternatives_without

/-- The nonterminals that stay mention only nonterminals that stay. -/
theorem notMem_unreachable_of_mentions (hg : g.WellFormed) {a b : Name} (ha : a ∉ g.unreachable)
    (hab : g.Mentions a b) : b ∉ g.unreachable := by
  obtain ⟨alternative, hmem, _⟩ := id hab
  intro hb
  rw [mem_unreachable_iff hg] at ha hb
  exact ha ⟨hg.mem_nonterminals hmem, fun hchain => hb.2 (hchain.tail hab)⟩

/-- Without the unreachable nonterminals, the others keep their sentences. -/
theorem derives_withoutUnreachable_iff (hg : g.WellFormed) {xs : List Symbol}
    (hxs : ∀ a, .nonterminal a ∈ xs → a ∉ g.unreachable) {w : List Name} :
    Derives g.withoutUnreachable xs w ↔ Derives g xs w := by
  constructor
  · exact Derives.follow fun b alternative hb w hw =>
      .of_alternative (mem_alternatives_withoutUnreachable.mp hb).2 hw
  · intro hw
    apply hw.transfer (P := (· ∉ g.unreachable))
    · intro b hb alternative hmem c hc
      exact notMem_unreachable_of_mentions hg hb ⟨alternative, hmem, hc⟩
    · intro b hb alternative hmem w hw
      exact .of_alternative (mem_alternatives_withoutUnreachable.mpr ⟨hb, hmem⟩) hw
    · exact hxs

theorem generates_withoutUnreachable_iff (hg : g.WellFormed) {a : Name} (ha : a ∉ g.unreachable)
    {w : List Name} : g.withoutUnreachable.Generates a w ↔ g.Generates a w :=
  derives_withoutUnreachable_iff hg (by simpa using ha)

theorem mem_unproductive_iff (hg : g.WellFormed) {a : Name} :
    a ∈ g.unproductive ↔ a ∈ g.nonterminals ∧ a ≠ g.start ∧ ∀ w, ¬ g.Generates a w := by
  rw [unproductive, mem_outside, mem_productive_iff hg.nodup_ruleNames, not_exists]

/-- The nonterminals that are left are the start symbol and those that derive a sentence. -/
theorem mem_nonterminals_withoutUnproductive_iff (hg : g.WellFormed) {a : Name} :
    a ∈ g.withoutUnproductive.nonterminals ↔ a = g.start ∨ ∃ w, g.Generates a w := by
  rw [mem_nonterminals_withoutUnproductive, mem_unproductive_iff hg]
  constructor
  · intro h'
    obtain ⟨ha, hstays⟩ := h'
    by_contra hnot
    obtain ⟨hne, hnone⟩ := not_or.mp hnot
    exact hstays ⟨ha, hne, not_exists.mp hnone⟩
  · rintro (rfl | ⟨w, hw⟩)
    · exact ⟨hg.start_mem, fun hout => hout.2.1 rfl⟩
    · exact ⟨mem_nonterminals_of_generates hg hw, fun hout => hout.2.2 w hw⟩

/-- A nonterminal that stays keeps those of its alternatives that are kept. -/
theorem alternatives_restrict_filter {names : List Name} {keep : Alternative → Bool} {a : Name}
    (ha : a ∉ g.outside names) :
    ((g.restrict names).mapAlternatives (·.filter keep)).alternatives a =
      (g.alternatives a).filter keep := by
  rw [alternatives_mapAlternatives _ List.filter_nil, restrict, alternatives_without_of_notMem ha]

theorem mem_alternatives_withoutUnproductive {a : Name} {alternative : Alternative} :
    alternative ∈ g.withoutUnproductive.alternatives a ↔
      a ∉ g.unproductive ∧ alternative ∈ g.alternatives a ∧
        alternative.isKnown true g.productive = true := by
  rw [withoutUnproductive, alternatives_mapAlternatives _ List.filter_nil, List.mem_filter,
    restrict, mem_alternatives_without, and_assoc]
  rfl

/-- The alternatives that are left are those that derive a sentence. -/
theorem mem_alternatives_withoutUnproductive_iff (hg : g.WellFormed) {a : Name}
    {alternative : Alternative} :
    alternative ∈ g.withoutUnproductive.alternatives a ↔
      alternative ∈ g.alternatives a ∧ ∃ w, Derives g alternative w := by
  rw [mem_alternatives_withoutUnproductive, isKnown_productive_iff hg.nodup_ruleNames]
  constructor
  · exact And.right
  · intro h'
    obtain ⟨ha, w, hw⟩ := id h'
    refine ⟨fun hout => ?_, h'⟩
    exact ((mem_unproductive_iff hg).mp hout).2.2 w (.of_alternative ha hw)

/-- Without the unproductive nonterminals and their mentions, every nonterminal keeps its
sentences: those that are taken away had none. -/
theorem derives_withoutUnproductive_iff (hg : g.WellFormed) {xs : List Symbol} {w : List Name} :
    Derives g.withoutUnproductive xs w ↔ Derives g xs w := by
  have hless : ∀ {xs w}, Derives g.withoutUnproductive xs w → Derives g xs w :=
    Derives.follow fun a alternative ha w hw =>
      .of_alternative ((mem_alternatives_withoutUnproductive_iff hg).mp ha).1 hw
  constructor
  · exact hless
  · apply Derives.follow
    intro a alternative ha w hw
    have hstays := (mem_alternatives_withoutUnproductive_iff hg).mpr ⟨ha, w, hless hw⟩
    exact .of_alternative hstays hw

end Grammar

end ContextFree

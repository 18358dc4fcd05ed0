import ContextFree.NormalForm.Absorption
import ContextFree.Proofs.Representation
import Mathlib.Algebra.Order.BigOperators.Group.List
import Mathlib.Algebra.Order.Group.Nat
import Mathlib.Data.List.Permutation

/-!
Taking renamings out comes to an end, however they lead in circles. Every iteration of the loop for
one nonterminal uses a renaming of the grammar up, since the alternatives of a nonterminal are
merged once at most. So the loop goes round at most as often as the grammar has renamings. A pass
over all nonterminals leaves none of them, and the next pass is the last.
-/

namespace ContextFree

theorem renamingCount_erase {alternatives : List Alternative} {b : Name}
    (h : [.nonterminal b] ∈ alternatives) :
    renamingCount (alternatives.erase [.nonterminal b]) + 1 = renamingCount alternatives := by
  have hperm := List.perm_cons_erase h
  rw [renamingCount, renamingCount, hperm.countP_eq]
  simp [Alternative.renamed?]

namespace Grammar

variable {g : Grammar}

/-- The renamings of the nonterminals that are not absorbed yet. -/
def pendingCount (g : Grammar) (absorbed : List Name) : Nat :=
  ((g.unabsorbed absorbed).map fun a => ContextFree.renamingCount (g.alternatives a)).sum

theorem pendingCount_nil (hg : g.ruleNames.Nodup) : g.pendingCount [] = g.renamingCount := by
  have hall : g.unabsorbed [] = g.rules.map Rule.name := by simp [unabsorbed, ruleNames]
  rw [pendingCount, hall, renamingCount, List.map_map]
  congr 1
  apply List.map_congr_left
  intro r hr
  rw [Function.comp_apply, alternatives_name hg hr]

/-- The renamings of a nonterminal stop counting as pending when it is absorbed. -/
theorem pendingCount_append (hg : g.ruleNames.Nodup) {absorbed : List Name} {b : Name}
    (hb : b ∉ absorbed) :
    g.pendingCount (absorbed ++ [b]) + ContextFree.renamingCount (g.alternatives b) =
      g.pendingCount absorbed := by
  by_cases hname : b ∈ g.ruleNames
  · have hmem : b ∈ g.unabsorbed absorbed := mem_unabsorbed.mpr ⟨hname, hb⟩
    have hnodup : (g.unabsorbed absorbed).Nodup := hg.filter _
    rw [pendingCount, pendingCount, unabsorbed_append_eq_filter, ← hnodup.erase_eq_filter,
      Nat.add_comm]
    exact List.sum_map_erase (fun a => ContextFree.renamingCount (g.alternatives a)) hmem
  · rw [pendingCount, pendingCount, unabsorbed_append hname, alternatives_eq_nil hname]
    rfl

end Grammar

open Grammar

namespace Absorption

variable {g : Grammar} {a b : Name} {absorbed : List Name} {alternatives : List Alternative}
  {s t : Absorption}

theorem next?_of_none (ha : a ∈ g.ruleNames) (hnone : firstRenamed? alternatives = none) :
    next? a ⟨g.setAlternatives a alternatives, absorbed⟩ = none := by
  simp [next?, alternatives_setAlternatives_self ha, hnone]

theorem next?_of_mem (ha : a ∈ g.ruleNames) (hb : firstRenamed? alternatives = some b)
    (hmem : b ∈ absorbed) :
    next? a ⟨g.setAlternatives a alternatives, absorbed⟩ =
      some ⟨g.setAlternatives a (alternatives.erase [.nonterminal b]), absorbed⟩ := by
  simp [next?, alternatives_setAlternatives_self ha, hb, hmem]

theorem next?_of_notMem (ha : a ∈ g.ruleNames) (hself : a ∈ absorbed)
    (hb : firstRenamed? alternatives = some b) (hnew : b ∉ absorbed) :
    next? a ⟨g.setAlternatives a alternatives, absorbed⟩ =
      some ⟨g.setAlternatives a (alternatives.erase [.nonterminal b] ++
        (g.alternatives b).filter (!(alternatives.erase [.nonterminal b]).contains ·)),
        absorbed ++ [b]⟩ := by
  have hne : b ≠ a := fun he => hnew (he ▸ hself)
  simp [next?, alternatives_setAlternatives_self ha, hb, hnew, hne]

/-- The loop ends with what `absorb` tells. Each iteration takes a renaming away from those of the
rule and those that are still to be merged. -/
theorem exists_iterates (hg : g.ruleNames.Nodup) (ha : a ∈ g.ruleNames) (hself : a ∈ absorbed)
    (alternatives : List Alternative) :
    ∃ n ≤ renamingCount alternatives + g.pendingCount absorbed, ∃ s,
      Iterates a n ⟨g.setAlternatives a alternatives, absorbed⟩ s ∧ s.next? a = none ∧
        s.grammar = g.setAlternatives a (g.absorb absorbed alternatives) := by
  fun_induction absorb g absorbed alternatives with
  | case1 absorbed alternatives hnone =>
    exact ⟨0, Nat.zero_le _, _, .refl _, next?_of_none ha hnone, rfl⟩
  | case2 absorbed alternatives b hb rest hmem ih =>
    obtain ⟨n, hn, s, hs, hend, hgrammar⟩ := ih hself
    have hcount : renamingCount rest + 1 = renamingCount alternatives :=
      renamingCount_erase (mem_of_firstRenamed? hb)
    refine ⟨n + 1, by omega, s, .step (next?_of_mem ha hb (by simpa using hmem)) hs, hend, hgrammar⟩
  | case3 absorbed alternatives b hb rest hnew ih =>
    have hnew : b ∉ absorbed := by simpa using hnew
    obtain ⟨n, hn, s, hs, hend, hgrammar⟩ := ih (List.mem_append_left _ hself)
    have hcount : renamingCount rest + 1 = renamingCount alternatives :=
      renamingCount_erase (mem_of_firstRenamed? hb)
    have hpending := pendingCount_append hg hnew
    have hmerged : renamingCount (rest ++ (g.alternatives b).filter (!rest.contains ·)) ≤
        renamingCount rest + renamingCount (g.alternatives b) := by
      rw [renamingCount, List.countP_append]
      exact Nat.add_le_add_left List.filter_sublist.countP_le _
    exact ⟨n + 1, by omega, s, .step (next?_of_notMem ha hself hb hnew) hs, hend, hgrammar⟩

/-- One iteration either merges a nonterminal that was not absorbed yet, or leaves one alternative
less. -/
theorem step_cases (hg : s.grammar.WellFormed) (h : s.next? a = some t) :
    (∃ b ∈ s.grammar.nonterminals, b ∉ s.absorbed ∧ t.absorbed = s.absorbed ++ [b]) ∨
      t.absorbed = s.absorbed ∧
        (t.grammar.alternatives a).length + 1 = (s.grammar.alternatives a).length := by
  obtain ⟨b, hb, rfl⟩ := Option.map_eq_some_iff.mp h
  have hrenames : s.grammar.Renames a b := mem_of_firstRenamed? hb
  by_cases hmem : b ∈ s.absorbed
  · have ha : a ∈ s.grammar.ruleNames := hg.ruleNames_eq ▸ hg.mem_nonterminals hrenames
    have hlength := List.length_erase_add_one hrenames
    exact .inr (by simpa [hmem, alternatives_setAlternatives_self ha] using hlength)
  · have hb : b ∈ s.grammar.nonterminals := hg.hasSymbol_of_mem hrenames (List.mem_singleton_self _)
    exact .inl ⟨b, hb, hmem, by simp [hmem]⟩

theorem keeps_next? (h : s.next? a = some t) :
    Keeps s.grammar t.grammar ∧ t.grammar.nonterminals = s.grammar.nonterminals := by
  obtain ⟨b, hb, rfl⟩ := Option.map_eq_some_iff.mp h
  obtain ⟨r, hr, hname, _⟩ := exists_rule (mem_of_firstRenamed? hb)
  have ha : a ∈ s.grammar.ruleNames := mem_ruleNames.mpr ⟨r, hr, hname⟩
  have hshrunk : Keeps s.grammar (s.grammar.setAlternatives a
      ((s.grammar.alternatives a).erase [.nonterminal b])) :=
    keeps_setAlternatives (fun x hx => ⟨a, List.mem_of_mem_erase hx⟩) fun hn => (hn a).erase _
  dsimp only
  split
  next => exact ⟨hshrunk, rfl⟩
  next =>
    refine ⟨hshrunk.trans ?_, rfl⟩
    have hself : (s.grammar.setAlternatives a ((s.grammar.alternatives a).erase
        [.nonterminal b])).alternatives a = (s.grammar.alternatives a).erase [.nonterminal b] :=
      alternatives_setAlternatives_self ha
    apply keeps_setAlternatives
    · intro x hx
      rcases List.mem_append.mp hx with hx | hx
      · exact ⟨a, by rwa [hself]⟩
      · exact ⟨b, (List.mem_filter.mp hx).1⟩
    · exact fun hn => nodup_append_filter (hself ▸ hn a) (hn b)

/-- The representation is in order after every iteration. -/
theorem Iterates.invariant {n : Nat} (h : Iterates a n s t) (hg : s.grammar.WellFormed) :
    t.grammar.WellFormed ∧ t.grammar.nonterminals = s.grammar.nonterminals := by
  induction h with
  | refl s => exact ⟨hg, rfl⟩
  | @step n s t u h _ ih =>
    obtain ⟨hkeeps, hnonterminals⟩ := keeps_next? h
    obtain ⟨hwell, hlater⟩ := ih (hkeeps.wellFormed hg)
    exact ⟨hwell, hlater.trans hnonterminals⟩

end Absorption

namespace Grammar

variable {g : Grammar} {a : Name}

theorem hasRenaming_eq_false_iff : g.hasRenaming a = false ↔ ∀ b, ¬ g.Renames a b := by
  rw [hasRenaming, Option.isSome_eq_false_iff, Option.isNone_iff_eq_none, firstRenamed?_eq_none_iff]
  constructor
  · intro h b hb
    exact Alternative.renamed?_eq_none_iff.mp (h _ hb) b rfl
  · intro h alternative ha
    refine Alternative.renamed?_eq_none_iff.mpr ?_
    rintro b rfl
    exact h b ha

theorem absorbAll_append (g : Grammar) (names later : List Name) :
    (g.absorbAll (names ++ later)).2 = ((g.absorbAll names).2.absorbAll later).2 := by
  induction names generalizing g with
  | nil => rfl
  | cons a rest ih => exact ih (g.absorbRenamings a)

theorem keeps_absorbAll (g : Grammar) (names : List Name) : Keeps g (g.absorbAll names).2 :=
  absorbAll_induction (fun k c hk => hk.trans (keeps_absorbRenamings k c)) names (.refl g)

theorem nonterminals_absorbAll (g : Grammar) (names : List Name) :
    (g.absorbAll names).2.nonterminals = g.nonterminals :=
  absorbAll_induction (P := fun k => k.nonterminals = g.nonterminals) (fun _ _ hk => hk) names rfl

/-- A nonterminal whose turn has come has no renaming, whatever comes after it. -/
theorem not_renames_absorbAll {names : List Name} (ha : a ∈ names) (b : Name) :
    ¬ (g.absorbAll names).2.Renames a b := by
  revert b
  rw [← hasRenaming_eq_false_iff]
  by_contra h
  have hrenames : (g.absorbAll names).2.hasRenaming a = true := by simpa using h
  have hmem : a ∈ (g.absorbAll names).2.renamers :=
    List.mem_filter.mpr ⟨mem_ruleNames_of_hasRenaming hrenames, hrenames⟩
  rw [renamers_absorbAll, List.mem_filter] at hmem
  simp [ha] at hmem

theorem absorbRenamings_eq_self (hg : g.ruleNames.Nodup) (h : g.hasRenaming a = false) :
    g.absorbRenamings a = g := by
  have hnone : firstRenamed? (g.alternatives a) = none := by simpa [hasRenaming] using h
  have hsame : g.absorb [a] (g.alternatives a) = g.alternatives a := by
    rw [absorb]
    split
    next => rfl
    next b hb => rw [hnone] at hb; cases hb
  rw [absorbRenamings, hsame, setAlternatives_alternatives hg]

/-- A pass that finds no renaming changes nothing. -/
theorem absorbAll_eq_self (hg : g.ruleNames.Nodup) {names : List Name}
    (h : ∀ a ∈ names, g.hasRenaming a = false) : g.absorbAll names = (false, g) := by
  induction names with
  | nil => rfl
  | cons a rest ih =>
    obtain ⟨ha, hrest⟩ := List.forall_mem_cons.mp h
    rw [absorbAll, absorbRenamings_eq_self hg ha, ih hrest, ha]
    rfl

/-- The second pass finds nothing to do. -/
theorem absorbAll_absorbAll (hg : g.WellFormed) :
    (g.absorbAll g.ruleNames).2.absorbAll (g.absorbAll g.ruleNames).2.ruleNames =
      (false, (g.absorbAll g.ruleNames).2) := by
  have hwell := (keeps_absorbAll g g.ruleNames).wellFormed hg
  have hsame : (g.absorbAll g.ruleNames).2.ruleNames = g.ruleNames := by
    rw [hwell.ruleNames_eq, nonterminals_absorbAll, hg.ruleNames_eq]
  refine absorbAll_eq_self hwell.nodup_ruleNames fun a ha => ?_
  exact hasRenaming_eq_false_iff.mpr (not_renames_absorbAll (hsame ▸ ha))

theorem exists_passes (hg : g.WellFormed) : ∃ n ≤ 2, g.Passes n g.withoutRenamings := by
  have hsecond := absorbAll_absorbAll hg
  have hsame : (g.absorbAll g.ruleNames).2.withoutRenamings = (g.absorbAll g.ruleNames).2 := by
    rw [withoutRenamings, hsecond]
    rfl
  have hlast : Passes 1 (g.absorbAll g.ruleNames).2 (g.absorbAll g.ruleNames).2 := by
    have h := Passes.last (congrArg Prod.fst hsecond)
    rwa [hsecond] at h
  rw [withoutRenamings]
  split
  next hchanged => exact ⟨2, le_refl 2, .more hchanged (by rwa [hsame])⟩
  next hunchanged => exact ⟨1, by decide, .last (by simpa using hunchanged)⟩

theorem renamingCount_absorbRenamings_le (hg : g.WellFormed) (a : Name) :
    (g.absorbRenamings a).renamingCount ≤ g.renamingCount := by
  have hk := (keeps_absorbRenamings g a).wellFormed hg
  rw [← pendingCount_nil hk.nodup_ruleNames, ← pendingCount_nil hg.nodup_ruleNames, pendingCount,
    pendingCount, unabsorbed, unabsorbed, ruleNames_absorbRenamings]
  apply List.sum_le_sum
  intro b _
  by_cases hb : b = a
  · subst hb
    have hzero : ContextFree.renamingCount ((g.absorbRenamings b).alternatives b) = 0 := by
      rw [ContextFree.renamingCount, List.countP_eq_zero]
      intro alternative h
      simp [(mem_absorbRenamings_self.mp h).1]
    omega
  · rw [alternatives_absorbRenamings_of_ne hb]

theorem renamingCount_absorbAll_le (hg : g.WellFormed) (names : List Name) :
    (g.absorbAll names).2.renamingCount ≤ g.renamingCount := by
  induction names generalizing g with
  | nil => exact le_refl _
  | cons a rest ih =>
    exact (ih ((keeps_absorbRenamings g a).wellFormed hg)).trans
      (renamingCount_absorbRenamings_le hg a)

end Grammar

namespace Absorption

variable {g : Grammar} {a : Name}

/-- The loop for one nonterminal goes round at most as often as the grammar has renamings. -/
theorem exists_iterates_absorbRenamings (hg : g.WellFormed) (ha : a ∈ g.nonterminals) :
    ∃ n ≤ g.renamingCount, ∃ s, Iterates a n ⟨g, [a]⟩ s ∧ s.next? a = none ∧
      s.grammar = g.absorbRenamings a := by
  have hnames := hg.nodup_ruleNames
  obtain ⟨n, hn, s, hs, hend, hgrammar⟩ := exists_iterates hnames (hg.ruleNames_eq ▸ ha)
    (List.mem_singleton_self a) (g.alternatives a)
  have hcount : g.pendingCount [a] + renamingCount (g.alternatives a) = g.renamingCount :=
    (pendingCount_append hnames List.not_mem_nil).trans (pendingCount_nil hnames)
  rw [setAlternatives_alternatives hnames] at hs
  exact ⟨n, by omega, s, hs, hend, hgrammar⟩

end Absorption

namespace Grammar

open Absorption

variable {g : Grammar}

/-- However renamings lead in circles, the loop for a nonterminal ends at any point of a pass, after
at most as many iterations as the grammar has renamings. Each of these merges a nonterminal that was
not absorbed yet or leaves an alternative less. No renaming of that nonterminal is left, and none
comes back later in the pass. So the second pass finds nothing to do and is the last. -/
theorem renamings_run_out (hg : g.WellFormed) :
    (∀ before, ∀ a ∈ g.nonterminals,
      (∃ n ≤ g.renamingCount, ∃ s, Iterates a n (initial g before a) s ∧ s.next? a = none ∧
        s.grammar = (g.absorbAll (before ++ [a])).2) ∧
      (∀ n s t, Iterates a n (initial g before a) s → s.next? a = some t →
        (∃ b ∈ g.nonterminals, b ∉ s.absorbed ∧ t.absorbed = s.absorbed ++ [b]) ∨
          t.absorbed = s.absorbed ∧
            (t.grammar.alternatives a).length + 1 = (s.grammar.alternatives a).length) ∧
      ∀ later b, [.nonterminal b] ∉ (g.absorbAll (before ++ a :: later)).2.alternatives a) ∧
    (g.absorbAll g.ruleNames).2.absorbAll (g.absorbAll g.ruleNames).2.ruleNames =
      (false, (g.absorbAll g.ruleNames).2) ∧
    ∃ n ≤ 2, g.Passes n g.withoutRenamings := by
  refine ⟨fun before a ha => ?_, absorbAll_absorbAll hg, exists_passes hg⟩
  have hk := (keeps_absorbAll g before).wellFormed hg
  have hsame := nonterminals_absorbAll g before
  refine ⟨?_, fun n s t hs hnext => ?_, fun later b => not_renames_absorbAll (by simp) b⟩
  · obtain ⟨n, hn, s, hs, hend, hgrammar⟩ := exists_iterates_absorbRenamings hk (hsame ▸ ha)
    have hfew := renamingCount_absorbAll_le hg before
    exact ⟨n, hn.trans hfew, s, hs, hend, hgrammar.trans (absorbAll_append g before [a]).symm⟩
  · obtain ⟨hwell, hnonterminals⟩ := hs.invariant hk
    have hnames : s.grammar.nonterminals = g.nonterminals := hnonterminals.trans hsame
    rw [← hnames]
    exact step_cases hwell hnext

/-- The loop for `S` goes round at most five times, since `ring` has five renamings. -/
theorem renamings_run_out_ring :
    ring.WellFormed ∧ ring.renamingCount = 5 ∧
      (∃ n ≤ 5, ∃ s, Iterates "S" n (initial ring [] "S") s ∧ s.next? "S" = none ∧
        s.grammar.alternatives "S" =
          [[.nonterminal "S", .terminal "a"], [.terminal "b", .nonterminal "S"], [.terminal "c"]]) ∧
      ∃ n ≤ 2, ring.Passes n ring.withoutRenamings := by
  obtain ⟨hloops, _, hpasses⟩ := renamings_run_out wellFormed_ring
  obtain ⟨⟨n, hn, s, hs, hend, hgrammar⟩, _⟩ := hloops [] "S" (by decide)
  have hcount : ring.renamingCount = 5 := by decide
  refine ⟨wellFormed_ring, hcount, ⟨n, hcount ▸ hn, s, hs, hend, ?_⟩, hpasses⟩
  rw [hgrammar]
  cbv

/-- It does go round five times. -/
example : ∃ s, Iterates "S" 5 (initial ring [] "S") s ∧ s.next? "S" = none :=
  ⟨_, .step rfl (.step rfl (.step rfl (.step rfl (.step rfl (.refl _))))), rfl⟩

end Grammar

end ContextFree

import ContextFree.Grammar.WellFormed
import ContextFree.NormalForm.Renaming
import ContextFree.Proofs.Derivation
import Mathlib.Logic.Relation

/-!
What a nonterminal inherits over chains of renamings is the same after every single absorption, and
the sentences depend on nothing else. Once no renaming is left, the inherited alternatives are those
of the nonterminal itself.
-/

namespace ContextFree

namespace Grammar

variable {g h : Grammar}

def Renames (g : Grammar) (a b : Name) : Prop := [Symbol.nonterminal b] ∈ g.alternatives a

instance (g : Grammar) (a b : Name) : Decidable (g.Renames a b) :=
  inferInstanceAs (Decidable (_ ∈ _))

/-- The alternative is not a renaming, and a chain of renamings leads from `a` to it. -/
def Inherits (g : Grammar) (a : Name) (alternative : Alternative) : Prop :=
  alternative.renamed? = none ∧
    ∃ b, Relation.ReflTransGen g.Renames a b ∧ alternative ∈ g.alternatives b

theorem Inherits.of_mem {a : Name} {alternative : Alternative}
    (ha : alternative ∈ g.alternatives a) (hr : alternative.renamed? = none) :
    g.Inherits a alternative := ⟨hr, a, .refl, ha⟩

theorem Inherits.of_renames {a b : Name} {alternative : Alternative} (hab : g.Renames a b)
    (hb : g.Inherits b alternative) : g.Inherits a alternative := by
  obtain ⟨hr, c, hbc, hc⟩ := hb
  exact ⟨hr, c, .head hab hbc, hc⟩

theorem Inherits.of_chain {a b : Name} {alternative : Alternative}
    (hab : Relation.ReflTransGen g.Renames a b) (hb : g.Inherits b alternative) :
    g.Inherits a alternative := by
  obtain ⟨hr, c, hbc, hc⟩ := hb
  exact ⟨hr, c, hab.trans hbc, hc⟩

/-- What holds while `absorb` runs for `a`: everything comes from a chain of renamings, and of the
nonterminals that were absorbed nothing is missing but renamings to each other. -/
structure Absorbing (g : Grammar) (a : Name) (absorbed : List Name)
    (alternatives : List Alternative) : Prop where
  start_mem : a ∈ absorbed
  sound : ∀ alternative ∈ alternatives,
    ∃ b, Relation.ReflTransGen g.Renames a b ∧ alternative ∈ g.alternatives b
  complete : ∀ b ∈ absorbed, ∀ alternative ∈ g.alternatives b,
    alternative ∈ alternatives ∨ ∃ c ∈ absorbed, alternative = [.nonterminal c]

namespace Absorbing

variable {a b : Name} {absorbed : List Name} {alternatives : List Alternative}

theorem initial (g : Grammar) (a : Name) : Absorbing g a [a] (g.alternatives a) where
  start_mem := List.mem_singleton.mpr rfl
  sound alternative h := ⟨a, .refl, h⟩
  complete b hb alternative h := .inl (by rwa [← List.mem_singleton.mp hb])

theorem skip (i : Absorbing g a absorbed alternatives) (hb : b ∈ absorbed) :
    Absorbing g a absorbed (alternatives.erase [.nonterminal b]) where
  start_mem := i.start_mem
  sound alternative h := i.sound alternative (List.mem_of_mem_erase h)
  complete c hc alternative h := by
    rcases i.complete c hc alternative h with hmem | hmem
    · by_cases he : alternative = [.nonterminal b]
      · exact .inr ⟨b, hb, he⟩
      · exact .inl ((List.mem_erase_of_ne he).mpr hmem)
    · exact .inr hmem

theorem merge (i : Absorbing g a absorbed alternatives)
    (hb : [.nonterminal b] ∈ alternatives) :
    Absorbing g a (absorbed ++ [b]) (alternatives.erase [.nonterminal b] ++
      (g.alternatives b).filter (!(alternatives.erase [.nonterminal b]).contains ·)) where
  start_mem := List.mem_append_left _ i.start_mem
  sound alternative h := by
    rcases List.mem_append.mp h with h | h
    · exact i.sound alternative (List.mem_of_mem_erase h)
    · obtain ⟨c, hac, hc⟩ := i.sound _ hb
      exact ⟨b, hac.tail hc, (List.mem_filter.mp h).1⟩
  complete c hc alternative h := by
    rcases List.mem_append.mp hc with hc | hc
    · rcases i.complete c hc alternative h with hmem | ⟨d, hd, he⟩
      · by_cases he : alternative = [.nonterminal b]
        · exact .inr ⟨b, by simp, he⟩
        · exact .inl (List.mem_append_left _ ((List.mem_erase_of_ne he).mpr hmem))
      · exact .inr ⟨d, List.mem_append_left _ hd, he⟩
    · rw [List.mem_singleton.mp hc] at h
      by_cases hrest : alternative ∈ alternatives.erase [.nonterminal b]
      · exact .inl (List.mem_append_left _ hrest)
      · exact .inl (List.mem_append_right _ (List.mem_filter.mpr ⟨h, by simpa using hrest⟩))

/-- When no renaming is left, what was gathered is what `a` inherits. -/
theorem mem_iff_inherits (i : Absorbing g a absorbed alternatives)
    (hnone : firstRenamed? alternatives = none) {alternative : Alternative} :
    alternative ∈ alternatives ↔ g.Inherits a alternative := by
  have hfree := firstRenamed?_eq_none_iff.mp hnone
  have hclosed : ∀ b c, b ∈ absorbed → g.Renames b c → c ∈ absorbed := by
    intro b c hb hbc
    rcases i.complete b hb _ hbc with hmem | ⟨d, hd, he⟩
    · exact absurd (hfree _ hmem) (by simp [Alternative.renamed?])
    · simp only [List.cons.injEq, Symbol.nonterminal.injEq, and_true] at he
      exact he ▸ hd
  have hchain : ∀ b, Relation.ReflTransGen g.Renames a b → b ∈ absorbed := by
    intro b hab
    induction hab with
    | refl => exact i.start_mem
    | tail _ hbc ih => exact hclosed _ _ ih hbc
  constructor
  · intro h
    exact ⟨hfree _ h, i.sound _ h⟩
  · intro h'
    obtain ⟨hr, b, hab, hb⟩ := h'
    rcases i.complete b (hchain b hab) _ hb with hmem | ⟨c, _, rfl⟩
    · exact hmem
    · simp [Alternative.renamed?] at hr

theorem mem_absorb_iff (i : Absorbing g a absorbed alternatives) {alternative : Alternative} :
    alternative ∈ g.absorb absorbed alternatives ↔ g.Inherits a alternative := by
  fun_induction absorb g absorbed alternatives with
  | case1 absorbed alternatives hnone => exact i.mem_iff_inherits hnone
  | case2 absorbed alternatives b hb rest hmem ih => exact ih (i.skip (by simpa using hmem))
  | case3 absorbed alternatives b hb rest hmem ih => exact ih (i.merge (mem_of_firstRenamed? hb))

end Absorbing

theorem mem_absorbRenamings_self {a : Name} {alternative : Alternative} :
    alternative ∈ (g.absorbRenamings a).alternatives a ↔ g.Inherits a alternative := by
  rw [← (Absorbing.initial g a).mem_absorb_iff, absorbRenamings]
  by_cases ha : a ∈ g.ruleNames
  · rw [alternatives_setAlternatives_self ha]
  · rw [alternatives_eq_nil (by simpa using ha), alternatives_eq_nil ha, absorb]
    rfl

@[simp] theorem alternatives_absorbRenamings_of_ne {a b : Name} (hb : b ≠ a) :
    (g.absorbRenamings a).alternatives b = g.alternatives b :=
  alternatives_setAlternatives_of_ne g _ hb

theorem Renames.of_absorbRenamings {a b c : Name} (h : (g.absorbRenamings c).Renames a b) :
    a ≠ c ∧ g.Renames a b := by
  by_cases hac : a = c
  · subst hac
    have hr := (mem_absorbRenamings_self.mp h).1
    simp [Alternative.renamed?] at hr
  · rw [Renames, alternatives_absorbRenamings_of_ne hac] at h
    exact ⟨hac, h⟩

/-- Absorbing the renamings of one nonterminal changes nothing that any nonterminal inherits. -/
theorem inherits_absorbRenamings_iff {a c : Name} {alternative : Alternative} :
    (g.absorbRenamings c).Inherits a alternative ↔ g.Inherits a alternative := by
  constructor
  · intro h'
    obtain ⟨hr, b, hab, hb⟩ := h'
    have hchain : Relation.ReflTransGen g.Renames a b :=
      Relation.ReflTransGen.mono (fun _ _ h => (Renames.of_absorbRenamings h).2) _ _ hab
    by_cases hbc : b = c
    · subst hbc
      exact (mem_absorbRenamings_self.mp hb).of_chain hchain
    · rw [alternatives_absorbRenamings_of_ne hbc] at hb
      exact ⟨hr, b, hchain, hb⟩
  · intro h'
    obtain ⟨hr, b, hab, hb⟩ := h'
    induction hab using Relation.ReflTransGen.head_induction_on with
    | refl =>
      by_cases hbc : b = c
      · subst hbc
        exact .of_mem (mem_absorbRenamings_self.mpr (.of_mem hb hr)) hr
      · exact .of_mem (by rwa [alternatives_absorbRenamings_of_ne hbc]) hr
    | @head a d had hdb ih =>
      by_cases hac : a = c
      · subst hac
        exact .of_mem (mem_absorbRenamings_self.mpr ⟨hr, b, .head had hdb, hb⟩) hr
      · apply ih.of_renames
        rwa [Renames, alternatives_absorbRenamings_of_ne hac]

/-- What one absorption keeps, a pass keeps. -/
theorem absorbAll_induction {P : Grammar → Prop} (hstep : ∀ g a, P g → P (g.absorbRenamings a))
    (names : List Name) (hg : P g) : P (g.absorbAll names).2 := by
  induction names generalizing g with
  | nil => exact hg
  | cons a rest ih => exact ih (hstep g a hg)

/-- What one absorption keeps, the whole stage keeps. -/
theorem withoutRenamings_induction {P : Grammar → Prop}
    (hstep : ∀ g a, P g → P (g.absorbRenamings a)) (hg : P g) : P g.withoutRenamings := by
  fun_induction withoutRenamings g with
  | case1 g _ ih => exact ih (absorbAll_induction hstep _ hg)
  | case2 g _ => exact absorbAll_induction hstep _ hg

/-- After a pass only nonterminals that it left out have renamings, and no new ones. -/
theorem renamers_absorbAll (g : Grammar) (names : List Name) :
    (g.absorbAll names).2.renamers = g.renamers.filter (!names.contains ·) := by
  induction names generalizing g with
  | nil => exact (List.filter_eq_self.mpr (by simp)).symm
  | cons a rest ih =>
    rw [absorbAll, ih, renamers_absorbRenamings, List.filter_filter]
    apply List.filter_congr
    intro b _
    rw [Bool.eq_iff_iff]
    simp [and_comm]

theorem renamers_withoutRenamings (g : Grammar) : g.withoutRenamings.renamers = [] := by
  fun_induction withoutRenamings g with
  | case1 g _ ih => exact ih
  | case2 g _ =>
    rw [renamers_absorbAll, List.filter_eq_nil_iff]
    intro a ha
    simp [(List.mem_filter.mp ha).1]

theorem renamed?_of_mem_withoutRenamings {a : Name} {alternative : Alternative}
    (h : alternative ∈ g.withoutRenamings.alternatives a) : alternative.renamed? = none := by
  have hnone : g.withoutRenamings.hasRenaming a = false := by
    rw [Bool.eq_false_iff]
    intro hr
    have hmem : a ∈ g.withoutRenamings.renamers :=
      List.mem_filter.mpr ⟨mem_ruleNames_of_hasRenaming hr, hr⟩
    simp [renamers_withoutRenamings] at hmem
  rw [hasRenaming, Option.isSome_eq_false_iff, Option.isNone_iff_eq_none] at hnone
  exact firstRenamed?_eq_none_iff.mp hnone alternative h

theorem inherits_withoutRenamings_iff {a : Name} {alternative : Alternative} :
    g.withoutRenamings.Inherits a alternative ↔ g.Inherits a alternative := by
  apply withoutRenamings_induction
    (P := fun k => k.Inherits a alternative ↔ g.Inherits a alternative)
  · exact fun k c hk => inherits_absorbRenamings_iff.trans hk
  · exact Iff.rfl

/-- In the end the alternatives of a nonterminal are those that it inherited in the beginning. -/
theorem mem_alternatives_withoutRenamings {a : Name} {alternative : Alternative} :
    alternative ∈ g.withoutRenamings.alternatives a ↔ g.Inherits a alternative := by
  rw [← inherits_withoutRenamings_iff]
  constructor
  · intro h
    exact .of_mem h (renamed?_of_mem_withoutRenamings h)
  · intro h'
    obtain ⟨hr, b, hab, hb⟩ := h'
    rcases hab.cases_head with rfl | ⟨c, hac, _⟩
    · exact hb
    · have hr := renamed?_of_mem_withoutRenamings hac
      simp [Alternative.renamed?] at hr

theorem Inherits.generates {a : Name} {alternative : Alternative} {w : List Name}
    (ha : g.Inherits a alternative) (hw : Derives g alternative w) : g.Generates a w := by
  obtain ⟨_, b, hab, hb⟩ := ha
  induction hab using Relation.ReflTransGen.head_induction_on with
  | refl => exact .of_alternative hb hw
  | head hac _ ih => exact .of_alternative hac ih

theorem Derives.exists_inherits {xs : List Symbol} {w : List Name} (hw : Derives g xs w)
    {a : Name} (hxs : xs = [.nonterminal a]) :
    ∃ alternative, g.Inherits a alternative ∧ Derives g alternative w := by
  induction hw generalizing a with
  | nil => cases hxs
  | terminal _ _ => cases hxs
  | @nonterminal b alternative rest u w ha hu hv ihu _ =>
    obtain ⟨rfl, rfl⟩ : b = a ∧ rest = [] := by simpa using hxs
    obtain rfl := derives_nil_iff.mp hv
    rw [List.append_nil]
    cases hr : alternative.renamed? with
    | none => exact ⟨alternative, .of_mem ha hr, hu⟩
    | some c =>
      obtain rfl := Alternative.renamed?_eq_some_iff.mp hr
      obtain ⟨alternative, hc, hu⟩ := ihu rfl
      exact ⟨alternative, hc.of_renames ha, hu⟩

theorem Derives.of_inherits (hsame : ∀ a alternative, g.Inherits a alternative ↔
    h.Inherits a alternative) {xs : List Symbol} {w : List Name} (hw : Derives g xs w) :
    Derives h xs w := by
  apply hw.follow
  intro a alternative ha w hw
  cases hr : alternative.renamed? with
  | none => exact ((hsame a alternative).mp (.of_mem ha hr)).generates hw
  | some b =>
    obtain rfl := Alternative.renamed?_eq_some_iff.mp hr
    obtain ⟨alternative, hb, hw⟩ := hw.exists_inherits rfl
    exact ((hsame a _).mp (.of_renames ha ((hsame b _).mpr hb))).generates hw

/-- Taking renamings out keeps every sentence of every nonterminal. -/
theorem derives_withoutRenamings_iff {xs : List Symbol} {w : List Name} :
    Derives g.withoutRenamings xs w ↔ Derives g xs w := by
  exact ⟨.of_inherits fun _ _ => inherits_withoutRenamings_iff,
    .of_inherits fun _ _ => inherits_withoutRenamings_iff.symm⟩

@[simp] theorem ruleNames_absorbRenamings (g : Grammar) (a : Name) :
    (g.absorbRenamings a).ruleNames = g.ruleNames := ruleNames_setAlternatives _ _ _

theorem ruleNames_withoutRenamings (g : Grammar) : g.withoutRenamings.ruleNames = g.ruleNames :=
  withoutRenamings_induction (P := fun k => k.ruleNames = g.ruleNames)
    (fun k a hk => (k.ruleNames_absorbRenamings a).trans hk) rfl

/-- Taking renamings out leaves every nonterminal with the alternatives that are no renamings and to
which a chain of renamings led before. So no renaming is left, and no sentence is lost or new. -/
theorem withoutRenamings_is_closure (hg : g.WellFormed) :
    g.withoutRenamings.ruleNames = g.ruleNames ∧
    (∀ a ∈ g.nonterminals, ∀ alternative,
      alternative ∈ g.withoutRenamings.alternatives a ↔
        (∀ b, alternative ≠ [.nonterminal b]) ∧
          ∃ b, Relation.ReflTransGen g.Renames a b ∧ alternative ∈ g.alternatives b) ∧
    (∀ r ∈ g.withoutRenamings.rules, ∀ a, [.nonterminal a] ∉ r.alternatives) ∧
    ∀ a w, g.withoutRenamings.Generates a w ↔ g.Generates a w := by
  have hnames := g.ruleNames_withoutRenamings
  refine ⟨hnames, fun a _ alternative => ?_, fun r hr a hmem => ?_, fun a w => ?_⟩
  · rw [mem_alternatives_withoutRenamings, Inherits, Alternative.renamed?_eq_none_iff]
  · rw [← alternatives_name (hnames ▸ hg.nodup_ruleNames) hr] at hmem
    have hnone := renamed?_of_mem_withoutRenamings hmem
    exact Alternative.renamed?_eq_none_iff.mp hnone a rfl
  · exact derives_withoutRenamings_iff

/-- All four nonterminals rename each other, over cycles of different lengths. -/
def ring : Grammar where
  nonterminals := ["S", "A", "B", "C"]
  terminals := ["a", "b", "c"]
  rules := [
    ⟨"S", [[.nonterminal "A"], [.nonterminal "S", .terminal "a"]]⟩,
    ⟨"A", [[.nonterminal "B"]]⟩,
    ⟨"B", [[.nonterminal "C"], [.terminal "b", .nonterminal "S"]]⟩,
    ⟨"C", [[.nonterminal "S"], [.nonterminal "A"], [.terminal "c"]]⟩]
  start := "S"

theorem wellFormed_ring : ring.WellFormed := by decide

/-- `A` inherits from `S` over three renamings, and `S` from `C` over three others. -/
theorem withoutRenamings_ring :
    ring.WellFormed ∧
      [.nonterminal "S", .terminal "a"] ∈ ring.withoutRenamings.alternatives "A" ∧
      (∀ r ∈ ring.withoutRenamings.rules, ∀ a, [.nonterminal a] ∉ r.alternatives) ∧
      ring.withoutRenamings.Generates "S" ["c"] := by
  obtain ⟨_, hclosure, hnone, hsame⟩ := withoutRenamings_is_closure wellFormed_ring
  have hSA : ring.Renames "S" "A" := by decide
  have hAB : ring.Renames "A" "B" := by decide
  have hBC : ring.Renames "B" "C" := by decide
  have hCS : ring.Renames "C" "S" := by decide
  have hchain : Relation.ReflTransGen ring.Renames "A" "S" :=
    .head hAB (.head hBC (.single hCS))
  have hC : ring.Generates "C" ["c"] := .of_alternative (by decide) (derives_terminals _ ["c"])
  have hB : ring.Generates "B" ["c"] := .of_alternative hBC hC
  have hA : ring.Generates "A" ["c"] := .of_alternative hAB hB
  have hS : ring.Generates "S" ["c"] := .of_alternative hSA hA
  refine ⟨wellFormed_ring, ?_, hnone, (hsame "S" ["c"]).mpr hS⟩
  exact (hclosure "A" (by decide) _).mpr ⟨by simp, "S", hchain, by decide⟩

end Grammar

end ContextFree

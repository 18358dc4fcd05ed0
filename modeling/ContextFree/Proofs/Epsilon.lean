import ContextFree.Grammar.WellFormed
import ContextFree.Proofs.Saturation

/-!
Taking empty alternatives out costs a nonterminal the empty sentence and nothing else: dropping a
nullable symbol is undone by deriving the empty sentence from it.
-/

namespace ContextFree

namespace Alternative

/-- Keeping or dropping symbols leaves a part of the alternative. -/
theorem sublist_of_mem_variants {nullable : List Name} {alternative variant : Alternative}
    (h : variant ∈ variants nullable alternative) : variant.Sublist alternative := by
  induction alternative generalizing variant with
  | nil =>
    rw [variants, List.mem_singleton] at h
    exact h ▸ .slnil
  | cons s rest ih =>
    have hkept (hv : variant ∈ (variants nullable rest).map (s :: ·)) :
        variant.Sublist (s :: rest) := by
      obtain ⟨tail, ht, rfl⟩ := List.mem_map.mp hv
      exact (ih ht).cons_cons s
    rw [variants] at h
    split at h
    · rcases List.mem_append.mp h with h | h
      · exact hkept h
      · exact (ih h).cons s
    · exact hkept h

theorem cons_mem_variants {nullable : List Name} {s : Symbol} {rest tail : Alternative}
    (h : tail ∈ variants nullable rest) : s :: tail ∈ variants nullable (s :: rest) := by
  have hkept := List.mem_map_of_mem (f := (s :: ·)) h
  rw [variants]
  split
  · exact List.mem_append_left _ hkept
  · exact hkept

theorem mem_variants_cons_of_known {nullable : List Name} {s : Symbol} {rest tail : Alternative}
    (hs : s.isKnown false nullable = true) (h : tail ∈ variants nullable rest) :
    tail ∈ variants nullable (s :: rest) := by
  rw [variants, if_pos hs]
  exact List.mem_append_right _ h

end Alternative

namespace Grammar

variable {g : Grammar}

/-- The alternatives that are left: everything but nothing of what they were. -/
theorem mem_alternatives_withoutEpsilon {a : Name} {variant : Alternative} :
    variant ∈ g.withoutEpsilon.alternatives a ↔
      variant ≠ [] ∧ ∃ alternative ∈ g.alternatives a,
        variant ∈ alternative.variants g.nullable := by
  simp [withoutEpsilon, alternatives_mapAlternatives, and_comm]

/-- A variant derives only what the whole alternative does. -/
theorem Derives.of_mem_variants (hg : g.ruleNames.Nodup) {alternative variant : Alternative}
    (h : variant ∈ alternative.variants g.nullable) {w : List Name}
    (hw : Derives g variant w) : Derives g alternative w := by
  induction alternative generalizing variant w with
  | nil =>
    rw [Alternative.variants, List.mem_singleton] at h
    exact h ▸ hw
  | cons s rest ih =>
    have hkept (hv : variant ∈ (Alternative.variants g.nullable rest).map (s :: ·)) :
        Derives g (s :: rest) w := by
      obtain ⟨tail, ht, rfl⟩ := List.mem_map.mp hv
      obtain ⟨u, v, rfl, hu, hv⟩ := derives_cons_iff.mp hw
      exact hu.append (ih ht hv)
    rw [Alternative.variants] at h
    split at h
    next hs =>
      rcases List.mem_append.mp h with h | h
      · exact hkept h
      · have hempty : Derives g [s] [] := by
          cases s with
          | terminal a => cases hs
          | nonterminal a => exact (mem_nullable_iff hg).mp (by simpa [Symbol.isKnown] using hs)
        exact hempty.append (ih h hw)
    next => exact hkept h

/-- Every derivation is followed by a variant: drop the symbols that derived the empty sentence. -/
theorem Derives.exists_variant (hg : g.ruleNames.Nodup) {xs : List Symbol} {w : List Name}
    (hw : Derives g xs w) :
    ∃ variant ∈ Alternative.variants g.nullable xs, Derives g.withoutEpsilon variant w := by
  induction hw with
  | nil => exact ⟨[], by simp [Alternative.variants], .nil⟩
  | terminal _ ih =>
    obtain ⟨tail, ht, hv⟩ := ih
    exact ⟨_, Alternative.cons_mem_variants ht, .terminal hv⟩
  | @nonterminal a alternative rest u w ha hu _ ihu ihw =>
    obtain ⟨tail, ht, hv⟩ := ihw
    by_cases hempty : u = []
    · have hnull : a ∈ g.nullable :=
        (mem_nullable_iff hg).mpr (.of_alternative ha (hempty ▸ hu))
      have hknown : (Symbol.nonterminal a).isKnown false g.nullable = true := by
        simpa [Symbol.isKnown] using hnull
      subst hempty
      exact ⟨tail, Alternative.mem_variants_cons_of_known hknown ht, hv⟩
    · obtain ⟨variant, hvar, hu'⟩ := ihu
      have hne : variant ≠ [] := by
        rintro rfl
        exact hempty (derives_nil_iff.mp hu')
      have hmem : variant ∈ g.withoutEpsilon.alternatives a :=
        mem_alternatives_withoutEpsilon.mpr ⟨hne, alternative, ha, hvar⟩
      exact ⟨_, Alternative.cons_mem_variants ht, .nonterminal hmem hu' hv⟩

theorem nil_notMem_alternatives_withoutEpsilon (g : Grammar) (a : Name) :
    [] ∉ g.withoutEpsilon.alternatives a := fun h => (mem_alternatives_withoutEpsilon.mp h).1 rfl

/-- Without empty alternatives, each nonterminal keeps its sentences except the empty one. -/
theorem generates_withoutEpsilon_iff (hg : g.ruleNames.Nodup) {a : Name} {w : List Name} :
    g.withoutEpsilon.Generates a w ↔ g.Generates a w ∧ w ≠ [] := by
  constructor
  · intro hw
    constructor
    · apply hw.follow
      intro a variant hmem w hvar
      obtain ⟨_, alternative, ha, hv⟩ := mem_alternatives_withoutEpsilon.mp hmem
      exact .of_alternative ha (hvar.of_mem_variants hg hv)
    · exact hw.ne_nil g.nil_notMem_alternatives_withoutEpsilon (by simp)
  · intro h'
    obtain ⟨hw, hne⟩ := h'
    obtain ⟨alternative, ha, hw⟩ := generates_iff.mp hw
    obtain ⟨variant, hv, hw⟩ := hw.exists_variant hg
    have hvar : variant ≠ [] := by
      rintro rfl
      exact hne (derives_nil_iff.mp hw)
    exact .of_alternative (mem_alternatives_withoutEpsilon.mpr ⟨hvar, alternative, ha, hv⟩) hw

theorem ruleNames_withoutEpsilon (g : Grammar) : g.withoutEpsilon.ruleNames = g.ruleNames :=
  ruleNames_mapAlternatives _ _

/-- Taking empty alternatives out leaves no rule with one. It costs every nonterminal the empty
sentence, if it had that one, and no other. -/
theorem withoutEpsilon_keeps_nonempty (hg : g.WellFormed) :
    (∀ r ∈ g.withoutEpsilon.rules, [] ∉ r.alternatives) ∧
      ∀ a w, g.withoutEpsilon.Generates a w ↔ g.Generates a w ∧ w ≠ [] := by
  have hnames : g.withoutEpsilon.ruleNames.Nodup :=
    g.ruleNames_withoutEpsilon ▸ hg.nodup_ruleNames
  constructor
  · intro r hr hempty
    rw [← alternatives_name hnames hr] at hempty
    exact g.nil_notMem_alternatives_withoutEpsilon r.name hempty
  · exact fun a w => generates_withoutEpsilon_iff hg.nodup_ruleNames

/-- Nullable nonterminals on both sides of one that leads back to itself. The nonterminal `E`
derives the empty sentence in many ways, and nothing else. -/
def vanishing : Grammar where
  nonterminals := ["S", "A", "E"]
  terminals := ["a", "b"]
  rules := [
    ⟨"S", [[.nonterminal "A", .nonterminal "S", .nonterminal "E"], [.terminal "b"]]⟩,
    ⟨"A", [[.terminal "a", .nonterminal "A"], [.nonterminal "E"]]⟩,
    ⟨"E", [[.nonterminal "E", .nonterminal "E"], []]⟩]
  start := "S"

/-- `S` keeps a sentence in whose derivation `E` derives the empty one twice. `A` loses the empty
one. -/
theorem withoutEpsilon_vanishing :
    vanishing.WellFormed ∧
      (∀ r ∈ vanishing.withoutEpsilon.rules, [] ∉ r.alternatives) ∧
      vanishing.withoutEpsilon.Generates "S" ["a", "b"] ∧
      vanishing.Generates "A" [] ∧ ¬ vanishing.withoutEpsilon.Generates "A" [] := by
  have hg : vanishing.WellFormed := by decide
  obtain ⟨hnone, hiff⟩ := withoutEpsilon_keeps_nonempty hg
  have hE : vanishing.Generates "E" [] := .of_alternative (by decide) .nil
  have hA : vanishing.Generates "A" [] := .of_alternative (by decide) hE
  have hS : vanishing.Generates "S" ["b"] := .of_alternative (by decide) (derives_terminals _ ["b"])
  have haA : vanishing.Generates "A" ["a"] := .of_alternative (by decide) (.terminal hA)
  have hASE := haA.append (hS.append hE)
  exact ⟨hg, hnone, (hiff "S" ["a", "b"]).mpr ⟨.of_alternative (by decide) hASE, by decide⟩, hA,
    fun h => ((hiff "A" []).mp h).2 rfl⟩

end Grammar

end ContextFree

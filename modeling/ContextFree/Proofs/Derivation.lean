import ContextFree.Grammar.Derivation
import Mathlib.Data.List.Forall2

/-! Taking derivations apart, and carrying them from one grammar to another. -/

namespace ContextFree

namespace Grammar

variable {g h : Grammar}

@[simp] theorem derives_nil_iff {w : List Name} : Derives g [] w ↔ w = [] := by
  constructor
  · intro hw
    cases hw
    rfl
  · rintro rfl
    exact .nil

theorem derives_append_iff {xs ys : List Symbol} {w : List Name} :
    Derives g (xs ++ ys) w ↔ ∃ u v, w = u ++ v ∧ Derives g xs u ∧ Derives g ys v := by
  constructor
  · induction xs generalizing w with
    | nil =>
      intro hw
      exact ⟨[], w, rfl, .nil, hw⟩
    | cons s xs ih =>
      intro hw
      cases hw with
      | terminal hw =>
        obtain ⟨u, v, rfl, hu, hv⟩ := ih hw
        exact ⟨_, v, rfl, .terminal hu, hv⟩
      | nonterminal ha ht hw =>
        obtain ⟨u, v, rfl, hu, hv⟩ := ih hw
        exact ⟨_, v, (List.append_assoc ..).symm, .nonterminal ha ht hu, hv⟩
  · intro h'
    obtain ⟨u, v, rfl, hu, hv⟩ := h'
    exact hu.append hv

theorem derives_cons_iff {s : Symbol} {xs : List Symbol} {w : List Name} :
    Derives g (s :: xs) w ↔ ∃ u v, w = u ++ v ∧ Derives g [s] u ∧ Derives g xs v :=
  @derives_append_iff g [s] xs w

@[simp] theorem derives_terminal_iff {a : Name} {w : List Name} :
    Derives g [.terminal a] w ↔ w = [a] := by
  constructor
  · intro hw
    cases hw with
    | terminal hw => rw [derives_nil_iff.mp hw]
  · rintro rfl
    exact .terminal .nil

theorem derivesWithin_nonterminal_iff {d : Nat} {a : Name} {w : List Name} :
    DerivesWithin g d [.nonterminal a] w ↔
      ∃ e, d = e + 1 ∧ ∃ alternative ∈ g.alternatives a, DerivesWithin g e alternative w := by
  constructor
  · intro hw
    cases hw with
    | nonterminal ha hu hnil =>
      cases hnil
      exact ⟨_, rfl, _, ha, by simpa using hu⟩
  · rintro ⟨e, rfl, alternative, ha, hw⟩
    simpa using DerivesWithin.nonterminal ha hw .nil

theorem derivesWithin_cons_iff {d : Nat} {s : Symbol} {xs : List Symbol} {w : List Name} :
    DerivesWithin g d (s :: xs) w ↔
      ∃ u v, w = u ++ v ∧ DerivesWithin g d [s] u ∧ DerivesWithin g d xs v := by
  constructor
  · intro hw
    cases hw with
    | terminal hw => exact ⟨[_], _, rfl, .terminal .nil, hw⟩
    | nonterminal ha hu hw =>
      exact ⟨_, _, rfl, derivesWithin_nonterminal_iff.mpr ⟨_, rfl, _, ha, hu⟩, hw⟩
  · rintro ⟨u, v, rfl, hu, hv⟩
    cases hu with
    | terminal hnil =>
      cases hnil
      exact .terminal hv
    | nonterminal ha hu hnil =>
      cases hnil
      simpa using DerivesWithin.nonterminal ha hu hv

theorem derives_terminals (g : Grammar) (w : List Name) : Derives g (w.map .terminal) w := by
  induction w with
  | nil => exact .nil
  | cons a w ih => exact .terminal ih

/-- Symbols that stand for the same sentences may replace each other at the front. -/
theorem derives_append_congr {xs ys : List Symbol}
    (hxy : ∀ w, Derives g xs w ↔ Derives g ys w) (zs : List Symbol) (w : List Name) :
    Derives g (xs ++ zs) w ↔ Derives g (ys ++ zs) w := by
  simp only [derives_append_iff, hxy]

/-- A word derives what another one does, possibly in another grammar, if its symbols derive the
same one by one. -/
theorem derives_iff_of_forall₂ {xs ys : List Symbol}
    (hsymbols : List.Forall₂ (fun s t => ∀ w, Derives h [t] w ↔ Derives g [s] w) xs ys)
    {w : List Name} : Derives h ys w ↔ Derives g xs w := by
  induction hsymbols generalizing w with
  | nil => rw [derives_nil_iff, derives_nil_iff]
  | cons hst _ ih =>
    rw [derives_cons_iff, derives_cons_iff]
    simp only [hst, ih]

theorem Generates.of_alternative {a : Name} {alternative : Alternative} {w : List Name}
    (ha : alternative ∈ g.alternatives a) (hw : Derives g alternative w) : g.Generates a w :=
  generates_iff.mpr ⟨alternative, ha, hw⟩

/-- Derivations go over to another grammar where that grammar can follow every rule. Only the
nonterminals matter that the derivation can meet. -/
theorem Derives.transfer {P : Name → Prop}
    (hclosed : ∀ a, P a → ∀ alternative ∈ g.alternatives a, ∀ b,
      Symbol.nonterminal b ∈ alternative → P b)
    (hfollow : ∀ a, P a → ∀ alternative ∈ g.alternatives a, ∀ w,
      Derives h alternative w → h.Generates a w)
    {xs : List Symbol} {w : List Name} (hw : Derives g xs w)
    (hxs : ∀ b, Symbol.nonterminal b ∈ xs → P b) : Derives h xs w := by
  induction hw with
  | nil => exact .nil
  | terminal _ ih => exact .terminal (ih fun b hb => hxs b (List.mem_cons_of_mem _ hb))
  | @nonterminal a alternative rest u v ha _ _ ihu ihv =>
    have hP : P a := hxs a List.mem_cons_self
    have hu : h.Generates a u := hfollow a hP alternative ha u (ihu (hclosed a hP alternative ha))
    exact hu.append (ihv fun b hb => hxs b (List.mem_cons_of_mem _ hb))

/-- Derivations go over to another grammar that can follow every rule. -/
theorem Derives.follow
    (hfollow : ∀ a, ∀ alternative ∈ g.alternatives a, ∀ w,
      Derives h alternative w → h.Generates a w)
    {xs : List Symbol} {w : List Name} (hw : Derives g xs w) : Derives h xs w :=
  hw.transfer (P := fun _ => True) (fun _ _ _ _ _ _ => trivial) (fun a _ => hfollow a)
    fun _ _ => trivial

theorem Derives.mono (hsub : ∀ a, g.alternatives a ⊆ h.alternatives a) {xs : List Symbol}
    {w : List Name} (hw : Derives g xs w) : Derives h xs w :=
  hw.follow fun a _ ha _ hw => .of_alternative (hsub a ha) hw

/-- Derivations see nothing of a grammar but the alternatives of its names. -/
theorem derives_congr (hsame : ∀ a, g.alternatives a = h.alternatives a) {xs : List Symbol}
    {w : List Name} : Derives g xs w ↔ Derives h xs w := by
  constructor
  · exact Derives.mono fun a => hsame a ▸ List.Subset.refl _
  · exact Derives.mono fun a => hsame a ▸ List.Subset.refl _

/-- A grammar without empty alternatives derives the empty sentence from no symbol at all only. -/
theorem Derives.ne_nil (hg : ∀ a, [] ∉ g.alternatives a) {xs : List Symbol} {w : List Name}
    (hw : Derives g xs w) (hxs : xs ≠ []) : w ≠ [] := by
  induction hw with
  | nil => exact absurd rfl hxs
  | terminal _ _ => exact List.cons_ne_nil _ _
  | nonterminal ha _ _ ihu _ =>
    have hu := ihu fun he => hg _ (he ▸ ha)
    exact List.append_ne_nil_of_left_ne_nil hu _

end Grammar

end ContextFree

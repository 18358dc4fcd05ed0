import Mathlib.Data.List.Nodup

/-! Lists from which repeats were taken out. -/

namespace ContextFree

/-- Induction for a recursion that goes on, behind the first element, with those that are not like
it. -/
theorem filter_induction {β : Type} (alike : β → β → Bool) {motive : List β → Prop}
    (nil : motive [])
    (cons : ∀ x rest, motive (rest.filter fun y => !alike y x) → motive (x :: rest))
    (xs : List β) : motive xs := by
  induction h : xs.length using Nat.strongRecOn generalizing xs with
  | _ n ih =>
    cases xs with
    | nil => exact nil
    | cons x rest =>
      have hle := List.length_filter_le (fun y => !alike y x) rest
      rw [List.length_cons] at h
      exact cons x rest (ih _ (by omega) _ rfl)

variable {α : Type} [BEq α] [LawfulBEq α]

theorem nodup_eraseDups (xs : List α) : xs.eraseDups.Nodup := by
  induction xs using filter_induction (fun y x : α => y == x) with
  | nil => exact List.nodup_nil
  | cons x rest ih =>
    rw [List.eraseDups_cons, List.nodup_cons]
    exact ⟨by simp [List.mem_eraseDups], ih⟩

/-- A list without repeats stays as it is. -/
theorem eraseDups_of_nodup {xs : List α} (h : xs.Nodup) : xs.eraseDups = xs := by
  induction xs with
  | nil => rfl
  | cons x rest ih =>
    obtain ⟨hx, hrest⟩ := List.nodup_cons.mp h
    have hkeep : (rest.filter fun y => !y == x) = rest := by
      rw [List.filter_eq_self]
      intro y hy
      have hne : y ≠ x := fun he => hx (he ▸ hy)
      simpa using hne
    rw [List.eraseDups_cons, hkeep, ih hrest]

/-- What comes out of an ordered list, without repeats, is in the order in which it comes out
first. -/
theorem pairwise_eraseDups_map {β : Type} {R : β → β → Prop} (f : β → α) {xs : List β}
    (h : xs.Pairwise R) :
    (xs.map f).eraseDups.Pairwise fun b c =>
      ∃ x ∈ xs, f x = b ∧ ∀ y ∈ xs, f y = c → R x y := by
  induction xs using filter_induction (fun y x : β => f y == f x) with
  | nil => exact List.Pairwise.nil
  | cons x rest ih =>
    obtain ⟨hx, hrest⟩ := List.pairwise_cons.mp h
    have hothers : (rest.map f).filter (fun c => !c == f x) =
        (rest.filter fun y => !f y == f x).map f := List.filter_map
    have hne : ∀ c ∈ ((rest.filter fun y => !f y == f x).map f).eraseDups, c ≠ f x := by
      intro c hc
      obtain ⟨y, hy, rfl⟩ := List.mem_map.mp (List.mem_eraseDups.mp hc)
      simpa using (List.mem_filter.mp hy).2
    rw [List.map_cons, List.eraseDups_cons, hothers, List.pairwise_cons]
    constructor
    · intro c hc
      refine ⟨x, List.mem_cons_self, rfl, fun y hy hyc => ?_⟩
      rcases List.mem_cons.mp hy with rfl | hy
      · exact absurd hyc.symm (hne c hc)
      · exact hx y hy
    · -- Behind `x` only those count that come out different, and the same holds for what is sought.
      refine (ih (hrest.filter _)).imp_of_mem ?_
      rintro b c _ hc ⟨z, hz, hzb, hbefore⟩
      refine ⟨z, List.mem_cons_of_mem _ (List.mem_filter.mp hz).1, hzb, fun y hy hyc => ?_⟩
      have hyx : f y ≠ f x := hyc ▸ hne c hc
      rcases List.mem_cons.mp hy with rfl | hy
      · exact absurd rfl hyx
      · exact hbefore y (List.mem_filter.mpr ⟨hy, by simpa using hyx⟩) hyc

end ContextFree

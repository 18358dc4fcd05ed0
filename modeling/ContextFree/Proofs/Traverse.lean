import Mathlib.Data.List.Forall2

/-!
A traversal that may fail succeeds exactly if it does so for every member of the list. Otherwise it
fails as it does for the first member that it fails for.
-/

namespace ContextFree

variable {ε α β : Type}

theorem bind_eq_ok_iff {x : Except ε α} {f : α → Except ε β} {b : β} :
    x >>= f = .ok b ↔ ∃ a, x = .ok a ∧ f a = .ok b := by
  cases x with
  | error e => simp [bind, Except.bind]
  | ok a => simp [bind, Except.bind]

theorem mapError_eq_ok_iff {ε' : Type} {x : Except ε α} {f : ε → ε'} {a : α} :
    x.mapError f = .ok a ↔ x = .ok a := by
  cases x <;> simp [Except.mapError]

theorem map_eq_error_iff {x : Except ε α} {f : α → β} {e : ε} :
    x.map f = .error e ↔ x = .error e := by
  cases x <;> simp [Except.map]

theorem bind_eq_error_iff {x : Except ε α} {f : α → Except ε β} {e : ε} :
    x >>= f = .error e ↔ x = .error e ∨ ∃ a, x = .ok a ∧ f a = .error e := by
  cases x with
  | error e' => simp [bind, Except.bind]
  | ok a => simp [bind, Except.bind]

theorem mapM_eq_ok_iff {f : α → Except ε β} {xs : List α} {ys : List β} :
    xs.mapM f = .ok ys ↔ List.Forall₂ (fun x y => f x = .ok y) xs ys := by
  induction xs generalizing ys with
  | nil => simp [pure, Except.pure, eq_comm]
  | cons x xs ih =>
    simp only [List.mapM_cons, bind_eq_ok_iff, ih, List.forall₂_cons_left_iff]
    constructor
    · intro h'
      obtain ⟨y, hy, ys, hys, h⟩ := h'
      exact ⟨y, ys, hy, hys, (Except.ok.inj h).symm⟩
    · intro h'
      obtain ⟨y, ys, hy, hys, rfl⟩ := h'
      exact ⟨y, hy, ys, hys, rfl⟩

/-- The first member of a list that has a property. -/
def FirstWith (P : α → Prop) (xs : List α) (x : α) : Prop :=
  ∃ before behind, xs = before ++ x :: behind ∧ P x ∧ ∀ y ∈ before, ¬ P y

theorem FirstWith.mem {P : α → Prop} {xs : List α} {x : α} (h : FirstWith P xs x) : x ∈ xs := by
  obtain ⟨before, behind, rfl, _⟩ := h
  simp

theorem not_firstWith_nil {P : α → Prop} {x : α} : ¬ FirstWith P [] x :=
  fun h => nomatch h.mem

theorem firstWith_cons_iff {P : α → Prop} {xs : List α} {x y : α} :
    FirstWith P (y :: xs) x ↔ P y ∧ x = y ∨ ¬ P y ∧ FirstWith P xs x := by
  constructor
  · rintro ⟨before, behind, heq, hx, hbefore⟩
    cases before with
    | nil =>
      obtain ⟨rfl, rfl⟩ := List.cons.inj heq
      exact .inl ⟨hx, rfl⟩
    | cons z before =>
      obtain ⟨rfl, rfl⟩ := List.cons.inj heq
      obtain ⟨hy, hrest⟩ := List.forall_mem_cons.mp hbefore
      exact .inr ⟨hy, before, behind, rfl, hx, hrest⟩
  · rintro (⟨hy, rfl⟩ | ⟨hy, before, behind, rfl, hx, hbefore⟩)
    · exact ⟨[], xs, rfl, hy, by simp⟩
    · exact ⟨y :: before, behind, rfl, hx, List.forall_mem_cons.mpr ⟨hy, hbefore⟩⟩

theorem exists_firstWith_iff {P : α → Prop} {xs : List α} :
    (∃ x, FirstWith P xs x) ↔ ∃ x ∈ xs, P x := by
  induction xs with
  | nil => simp [not_firstWith_nil]
  | cons y ys ih =>
    simp only [firstWith_cons_iff, List.exists_mem_cons_iff, ← ih]
    by_cases hy : P y <;> simp [hy]

theorem find?_eq_some_iff_firstWith {p : α → Bool} {xs : List α} {x : α} :
    xs.find? p = some x ↔ FirstWith (p · = true) xs x := by
  rw [List.find?_eq_some_iff_append, FirstWith]
  simp only [Bool.not_eq_true', Bool.not_eq_true]
  constructor
  · rintro ⟨hx, before, behind, heq, hbefore⟩
    exact ⟨before, behind, heq, hx, hbefore⟩
  · rintro ⟨before, behind, heq, hx, hbefore⟩
    exact ⟨hx, before, behind, heq, hbefore⟩

theorem mapM_eq_error_iff {f : α → Except ε β} {xs : List α} {e : ε} :
    xs.mapM f = .error e ↔
      ∃ x, FirstWith (fun x => ∃ e, f x = .error e) xs x ∧ f x = .error e := by
  induction xs with
  | nil => simp [pure, Except.pure, not_firstWith_nil]
  | cons x xs ih =>
    rw [List.mapM_cons, bind_eq_error_iff]
    simp only [bind_eq_error_iff, ih, firstWith_cons_iff]
    cases h : f x with
    | error e' => simp [h, eq_comm]
    | ok y => simp [pure, Except.pure]

/-- Lists of lists are traversed like the list of all their members, as far as failures go. -/
theorem mapM_mapM_eq_error_iff {f : α → Except ε β} {xss : List (List α)} {e : ε} :
    (xss.mapM fun xs => xs.mapM f) = .error e ↔ xss.flatten.mapM f = .error e := by
  induction xss with
  | nil => simp [pure, Except.pure]
  | cons xs xss ih =>
    rw [List.mapM_cons, List.flatten_cons, List.mapM_append]
    simp only [bind_eq_error_iff, ih]
    simp [pure, Except.pure]

theorem mapM_eq_some_iff {f : α → Option β} {xs : List α} {ys : List β} :
    xs.mapM f = some ys ↔ List.Forall₂ (fun x y => f x = some y) xs ys := by
  induction xs generalizing ys with
  | nil => simp [eq_comm]
  | cons x xs ih =>
    simp only [List.mapM_cons, Option.bind_eq_bind, Option.bind_eq_some_iff, ih,
      List.forall₂_cons_left_iff]
    constructor
    · intro h'
      obtain ⟨y, hy, ys, hys, h⟩ := h'
      exact ⟨y, ys, hy, hys, (Option.some.inj h).symm⟩
    · intro h'
      obtain ⟨y, ys, hy, hys, rfl⟩ := h'
      exact ⟨y, hy, ys, hys, rfl⟩

theorem isSome_mapM_iff {f : α → Option β} {xs : List α} :
    (xs.mapM f).isSome = true ↔ ∀ x ∈ xs, (f x).isSome = true := by
  induction xs with
  | nil => simp
  | cons x xs ih =>
    rw [List.forall_mem_cons, ← ih, List.mapM_cons]
    cases f x with
    | none => simp
    | some y => cases xs.mapM f <;> simp

/-- A function that answers on all members gives exactly its answers. -/
theorem forall₂_eq_ok_iff {f : α → Except ε β} {answer : α → β} {xs : List α} {ys : List β}
    (h : ∀ x ∈ xs, f x = .ok (answer x)) :
    List.Forall₂ (fun x y => f x = .ok y) xs ys ↔ ys = xs.map answer := by
  induction xs generalizing ys with
  | nil => simp
  | cons x xs ih =>
    obtain ⟨hx, hxs⟩ := List.forall_mem_cons.mp h
    simp only [List.forall₂_cons_left_iff, ih hxs, hx, Except.ok.injEq, List.map_cons]
    constructor
    · intro h'
      obtain ⟨_, _, rfl, rfl, rfl⟩ := h'
      rfl
    · rintro rfl
      exact ⟨_, _, rfl, rfl, rfl⟩

theorem Forall₂.exists_left {R : α → β → Prop} {xs : List α} {ys : List β}
    (h : List.Forall₂ R xs ys) {y : β} (hy : y ∈ ys) : ∃ x ∈ xs, R x y := by
  induction h with
  | nil => cases hy
  | cons hxy _ ih =>
    rcases List.mem_cons.mp hy with rfl | hy
    · exact ⟨_, List.mem_cons_self, hxy⟩
    · obtain ⟨x, hx, hxy⟩ := ih hy
      exact ⟨x, List.mem_cons_of_mem _ hx, hxy⟩

theorem Forall₂.exists_right {R : α → β → Prop} {xs : List α} {ys : List β}
    (h : List.Forall₂ R xs ys) {x : α} (hx : x ∈ xs) : ∃ y ∈ ys, R x y :=
  exists_left h.flip hx

theorem Forall₂.trans {γ : Type} {R : α → β → Prop} {S : β → γ → Prop} {xs : List α} {ys : List β}
    {zs : List γ} (h : List.Forall₂ R xs ys) (h' : List.Forall₂ S ys zs) :
    List.Forall₂ (fun x z => ∃ y, R x y ∧ S y z) xs zs := by
  induction h generalizing zs with
  | nil =>
    cases h'
    exact .nil
  | cons hxy _ ih =>
    cases h' with
    | cons hyz hrest => exact .cons ⟨_, hxy, hyz⟩ (ih hrest)

/-- Members that are kept apart stay without repeats. -/
theorem Forall₂.nodup {R : α → β → Prop} {xs : List α} {ys : List β} (h : List.Forall₂ R xs ys)
    (hxs : xs.Nodup) (hinj : ∀ x ∈ xs, ∀ x' ∈ xs, ∀ y, R x y → R x' y → x = x') : ys.Nodup := by
  induction h with
  | nil => exact List.nodup_nil
  | cons hxy hrest ih =>
    simp only [List.nodup_cons, List.forall_mem_cons] at hxs hinj ⊢
    refine ⟨fun hy => ?_, ih hxs.2 fun x hx => (hinj.2 x hx).2⟩
    obtain ⟨x', hx', hxy'⟩ := exists_left hrest hy
    exact hxs.1 (hinj.1.2 x' hx' _ hxy hxy' ▸ hx')

end ContextFree

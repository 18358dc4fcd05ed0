import ContextFree.NormalForm.Shortening
import ContextFree.Proofs.Epsilon
import ContextFree.Proofs.EraseDups
import Mathlib.Data.Finset.Basic

/-!
Taking empty alternatives out shortens every alternative in all the ways that drop nullable symbols
and leave something. What comes out stands in the order of the ways that lead to it first.
-/

namespace ContextFree

theorem Symbol.isKnown_false_iff {known : List Name} {s : Symbol} :
    s.isKnown false known = true ↔ ∃ a ∈ known, s = .nonterminal a := by
  cases s <;> simp [Symbol.isKnown]

namespace Alternative

variable {n : Nat} {s : Symbol} {rest : Alternative} {nullable : List Name}

theorem droppingFrom_cons_of_notMem {dropped : Finset Nat} (h : n ∉ dropped) :
    droppingFrom n dropped (s :: rest) = s :: droppingFrom (n + 1) dropped rest := by
  simp [droppingFrom, h]

/-- A position in front of the symbols is not one of them. -/
theorem droppingFrom_insert {m : Nat} (h : m < n) (dropped : Finset Nat) :
    droppingFrom n (insert m dropped) rest = droppingFrom n dropped rest := by
  have hsame : ∀ x ∈ rest.zipIdx n, decide (x.2 ∉ insert m dropped) = decide (x.2 ∉ dropped) := by
    intro x hx
    have hle := List.le_snd_of_mem_zipIdx hx
    simp [show x.2 ≠ m by omega]
  rw [droppingFrom, droppingFrom, List.filter_congr hsame]

theorem droppingFrom_cons_insert (dropped : Finset Nat) :
    droppingFrom n (insert n dropped) (s :: rest) = droppingFrom (n + 1) dropped rest := by
  rw [← droppingFrom_insert (Nat.lt_succ_self n)]
  simp [droppingFrom]

/-- The sets of positions that hold nullable symbols, where the first symbol is at the position
`n`. They are in the order in which `variants` drops the symbols. -/
def dropSets (nullable : List Name) : Nat → Alternative → List (Finset Nat)
  | _, [] => [∅]
  | n, s :: rest =>
    let later := dropSets nullable (n + 1) rest
    if s.isKnown false nullable then later ++ later.map (insert n) else later

/-- There is a nullable symbol at the position, where the first symbol is at the position `n`. -/
def NullableAt (nullable : List Name) (n : Nat) (alternative : Alternative) (p : Nat) : Prop :=
  ∃ i, p = n + i ∧ ∃ a ∈ nullable, alternative[i]? = some (.nonterminal a)

theorem NullableAt.le {alternative : Alternative} {p : Nat}
    (h : NullableAt nullable n alternative p) : n ≤ p := by
  obtain ⟨i, rfl, _⟩ := h
  exact Nat.le_add_right n i

theorem nullableAt_cons_iff {p : Nat} :
    NullableAt nullable n (s :: rest) p ↔
      (p = n ∧ s.isKnown false nullable = true) ∨ NullableAt nullable (n + 1) rest p := by
  rw [Symbol.isKnown_false_iff]
  constructor
  · rintro ⟨i, rfl, a, ha, hi⟩
    cases i with
    | zero => exact .inl ⟨rfl, a, ha, by simpa using hi⟩
    | succ i => exact .inr ⟨i, by omega, a, ha, by simpa using hi⟩
  · rintro (⟨rfl, a, ha, rfl⟩ | ⟨i, rfl, a, ha, hi⟩)
    · exact ⟨0, rfl, a, ha, rfl⟩
    · exact ⟨i + 1, by omega, a, ha, by simpa using hi⟩

theorem mem_dropSets_iff {alternative : Alternative} {dropped : Finset Nat} :
    dropped ∈ dropSets nullable n alternative ↔
      ∀ p ∈ dropped, NullableAt nullable n alternative p := by
  induction alternative generalizing n dropped with
  | nil =>
    rw [dropSets, List.mem_singleton, Finset.eq_empty_iff_forall_notMem]
    simp [NullableAt]
  | cons s rest ih =>
    simp only [nullableAt_cons_iff, dropSets]
    split
    next hs =>
      rw [List.mem_append, List.mem_map]
      simp only [ih, hs, and_true]
      constructor
      · rintro (hlater | ⟨later, hlater, rfl⟩) p hp
        · exact .inr (hlater p hp)
        · exact (Finset.mem_insert.mp hp).imp_right (hlater p)
      · intro h
        by_cases hn : n ∈ dropped
        · refine .inr ⟨dropped.erase n, fun p hp => ?_, Finset.insert_erase hn⟩
          obtain ⟨hne, hp⟩ := Finset.mem_erase.mp hp
          exact (h p hp).resolve_left hne
        · refine .inl fun p hp => (h p hp).resolve_left ?_
          rintro rfl
          exact hn hp
    next hs => simp [ih, hs]

theorem notMem_of_mem_dropSets {dropped : Finset Nat} {m : Nat}
    (h : dropped ∈ dropSets nullable n rest) (hm : m < n) : m ∉ dropped := fun hmem =>
  absurd (mem_dropSets_iff.mp h m hmem).le (by omega)

theorem variants_eq_map (nullable : List Name) (n : Nat) (alternative : Alternative) :
    variants nullable alternative =
      (dropSets nullable n alternative).map (droppingFrom n · alternative) := by
  induction alternative generalizing n with
  | nil => rfl
  | cons s rest ih =>
    have hkept : (variants nullable rest).map (s :: ·) =
        (dropSets nullable (n + 1) rest).map (droppingFrom n · (s :: rest)) := by
      rw [ih (n + 1), List.map_map]
      apply List.map_congr_left
      intro dropped h
      exact (droppingFrom_cons_of_notMem (notMem_of_mem_dropSets h (Nat.lt_succ_self n))).symm
    have hdropped : variants nullable rest =
        ((dropSets nullable (n + 1) rest).map (insert n)).map (droppingFrom n · (s :: rest)) := by
      rw [ih (n + 1), List.map_map]
      apply List.map_congr_left
      intro dropped _
      exact (droppingFrom_cons_insert dropped).symm
    rw [variants, dropSets]
    split
    · rw [List.map_append, ← hkept, ← hdropped]
    · exact hkept

theorem pairwise_dropSets (nullable : List Name) (n : Nat) (alternative : Alternative) :
    (dropSets nullable n alternative).Pairwise KeepsFirst := by
  induction alternative generalizing n with
  | nil => exact List.pairwise_singleton _ _
  | cons s rest ih =>
    rw [dropSets]
    split
    next =>
      rw [List.pairwise_append, List.pairwise_map]
      refine ⟨ih (n + 1), (ih (n + 1)).imp_of_mem ?_, ?_⟩
      · rintro dropped other _ hother ⟨p, hp, hp', hbefore⟩
        have hne : p ≠ n := by
          rintro rfl
          exact notMem_of_mem_dropSets hother (Nat.lt_succ_self p) hp'
        refine ⟨p, by simp [hp, hne], by simp [hp'], fun q hq => ?_⟩
        simp [hbefore q hq]
      · intro dropped h other hother
        obtain ⟨later, hlater, rfl⟩ := List.mem_map.mp hother
        refine ⟨n, notMem_of_mem_dropSets h (Nat.lt_succ_self n), by simp, fun q hq => ?_⟩
        have hq' : q < n + 1 := by omega
        simp [notMem_of_mem_dropSets h hq', notMem_of_mem_dropSets hlater hq', hq.ne]
    next => exact ih (n + 1)

/-- What is dropped first is the last symbol. -/
example : dropSets ["A"] 0 [.nonterminal "A", .terminal "b", .nonterminal "A"] =
    [∅, {2}, {0}, {0, 2}] := by decide

/-- Going through the alternative from the left, symbol by symbol, gives the same. -/
theorem foldl_lengthen (nullable : List Name) (starts : List Alternative)
    (alternative : Alternative) :
    alternative.foldl (lengthen nullable) starts =
      starts.flatMap fun start => (variants nullable alternative).map (start ++ ·) := by
  induction alternative generalizing starts with
  | nil => simp [variants]
  | cons s rest ih =>
    rw [List.foldl_cons, ih, lengthen, List.flatMap_assoc]
    congr 1
    funext start
    rw [variants]
    split <;> simp [Function.comp_def]

theorem foldl_lengthen_nil (nullable : List Name) (alternative : Alternative) :
    alternative.foldl (lengthen nullable) [[]] = variants nullable alternative := by
  simp [foldl_lengthen]

end Alternative

namespace Grammar

variable {g : Grammar} {a : Name}

/-- The ways to shorten the alternatives of a nonterminal, one after the other, with what each of
them leaves. -/
def shortenings (g : Grammar) (a : Name) : List (Shortening × Alternative) :=
  (g.alternatives a).zipIdx.flatMap fun x =>
    (Alternative.dropSets g.nullable 0 x.1).map fun dropped =>
      (⟨x.2, dropped⟩, x.1.dropping dropped)

theorem mem_dropSets_iff_mayDrop (hg : g.WellFormed) {alternative : Alternative}
    {dropped : Finset Nat} :
    dropped ∈ Alternative.dropSets g.nullable 0 alternative ↔ g.MayDrop alternative dropped := by
  rw [Alternative.mem_dropSets_iff]
  refine forall₂_congr fun p _ => ?_
  simp only [Alternative.NullableAt, Nat.zero_add, mem_nullable_iff hg.nodup_ruleNames]
  constructor
  · rintro ⟨_, rfl, b, hb, hp⟩
    exact ⟨b, hp, hb⟩
  · rintro ⟨b, hp, hb⟩
    exact ⟨p, rfl, b, hb, hp⟩

theorem mem_shortenings_iff (hg : g.WellFormed) {x : Shortening} {variant : Alternative} :
    (x, variant) ∈ g.shortenings a ↔ g.Shortens a x variant := by
  obtain ⟨index, dropped⟩ := x
  simp only [shortenings, List.mem_flatMap, List.mem_map, Prod.exists, Prod.mk.injEq,
    Shortening.mk.injEq, List.mem_zipIdx_iff_getElem?, mem_dropSets_iff_mayDrop hg, Shortens]
  constructor
  · rintro ⟨alternative, _, hget, _, hmay, ⟨rfl, rfl⟩, rfl⟩
    exact ⟨alternative, hget, hmay, rfl⟩
  · rintro ⟨alternative, hget, hmay, rfl⟩
    exact ⟨alternative, index, hget, dropped, hmay, ⟨rfl, rfl⟩, rfl⟩

theorem pairwise_shortenings (g : Grammar) (a : Name) :
    (g.shortenings a).Pairwise fun x y => x.1.Before y.1 := by
  rw [shortenings, List.pairwise_flatMap]
  constructor
  · rintro ⟨alternative, index⟩ _
    rw [List.pairwise_map]
    exact (Alternative.pairwise_dropSets g.nullable 0 alternative).imp fun h => .inr ⟨rfl, h⟩
  · have hindex : ((g.alternatives a).zipIdx).Pairwise fun x y => x.2 < y.2 := by
      rw [← List.pairwise_map (f := Prod.snd), List.zipIdx_map_snd]
      exact List.pairwise_lt_range' 1
    refine hindex.imp fun hlt x hx y hy => ?_
    obtain ⟨_, _, rfl⟩ := List.mem_map.mp hx
    obtain ⟨_, _, rfl⟩ := List.mem_map.mp hy
    exact .inl hlt

theorem map_snd_shortenings (g : Grammar) (a : Name) :
    (g.shortenings a).map Prod.snd =
      (g.alternatives a).flatMap (Alternative.variants g.nullable) := by
  have hvariants : (fun x : Alternative × Nat => Alternative.variants g.nullable x.1) = fun x =>
      ((Alternative.dropSets g.nullable 0 x.1).map fun dropped =>
        ((⟨x.2, dropped⟩ : Shortening), x.1.dropping dropped)).map Prod.snd := by
    funext x
    rw [List.map_map, Alternative.variants_eq_map g.nullable 0]
    rfl
  rw [shortenings, List.map_flatMap, ← hvariants, ← List.flatMap_map Prod.fst, List.zipIdx_map_fst]

/-- The alternatives that are left are those that are not empty among what the ways leave, each of
them once. -/
theorem alternatives_withoutEpsilon_eq (g : Grammar) (a : Name) :
    g.withoutEpsilon.alternatives a =
      (((g.shortenings a).filter (·.2 != [])).map Prod.snd).eraseDups := by
  have hfilter : ((g.shortenings a).filter (·.2 != [])).map Prod.snd =
      ((g.shortenings a).map Prod.snd).filter (· != []) :=
    (List.filter_map (f := Prod.snd) (p := (· != []))).symm
  rw [withoutEpsilon, alternatives_mapAlternatives _ (by rfl), hfilter, map_snd_shortenings]

theorem mem_alternatives_withoutEpsilon_iff (hg : g.WellFormed) {variant : Alternative} :
    variant ∈ g.withoutEpsilon.alternatives a ↔
      variant ≠ [] ∧ ∃ x, g.Shortens a x variant := by
  simp only [alternatives_withoutEpsilon_eq, List.mem_eraseDups, List.mem_map, List.mem_filter,
    Prod.exists, bne_iff_ne]
  constructor
  · rintro ⟨x, _, ⟨hx, hne⟩, rfl⟩
    exact ⟨hne, x, (mem_shortenings_iff hg).mp hx⟩
  · rintro ⟨hne, x, hx⟩
    exact ⟨x, variant, ⟨(mem_shortenings_iff hg).mpr hx, hne⟩, rfl⟩

theorem exists_shortens_iff {variant : Alternative} :
    (∃ x, g.Shortens a x variant) ↔
      ∃ alternative ∈ g.alternatives a, ∃ dropped,
        g.MayDrop alternative dropped ∧ alternative.dropping dropped = variant := by
  constructor
  · rintro ⟨x, alternative, hget, hmay, hdrop⟩
    exact ⟨alternative, List.mem_of_getElem? hget, x.dropped, hmay, hdrop⟩
  · rintro ⟨alternative, hmem, dropped, hmay, hdrop⟩
    obtain ⟨index, hget⟩ := List.mem_iff_getElem?.mp hmem
    exact ⟨⟨index, dropped⟩, alternative, hget, hmay, hdrop⟩

theorem pairwise_alternatives_withoutEpsilon (hg : g.WellFormed) (a : Name) :
    (g.withoutEpsilon.alternatives a).Pairwise fun variant later =>
      ∃ x, g.Shortens a x variant ∧ ∀ y, g.Shortens a y later → x.Before y := by
  have hpairwise := pairwise_eraseDups_map Prod.snd
    ((pairwise_shortenings g a).filter (·.2 != []))
  rw [← alternatives_withoutEpsilon_eq] at hpairwise
  refine hpairwise.imp_of_mem ?_
  rintro _ later _ hlater ⟨⟨x, variant⟩, hx, rfl, hbefore⟩
  refine ⟨x, (mem_shortenings_iff hg).mp (List.mem_filter.mp hx).1, fun y hy => ?_⟩
  have hne := ((mem_alternatives_withoutEpsilon_iff hg).mp hlater).1
  refine hbefore (y, later) (List.mem_filter.mpr ⟨(mem_shortenings_iff hg).mpr hy, ?_⟩) rfl
  simpa using hne

/-- Each alternative is gone through from the left, and every nullable symbol is both kept and
dropped. What is left are the forms of the alternatives that lack the nullable symbols at any set of
positions, except the empty form, each of them once. They stand in the order of the first ways that
lead to them. -/
theorem withoutEpsilon_drops_in_order (hg : g.WellFormed) (a : Name) :
    g.withoutEpsilon.alternatives a =
        (((g.alternatives a).flatMap fun alternative =>
          alternative.foldl (Alternative.lengthen g.nullable) [[]]).filter (· != [])).eraseDups ∧
      (∀ variant, variant ∈ g.withoutEpsilon.alternatives a ↔
        variant ≠ [] ∧ ∃ alternative ∈ g.alternatives a, ∃ dropped,
          g.MayDrop alternative dropped ∧ alternative.dropping dropped = variant) ∧
      (g.withoutEpsilon.alternatives a).Nodup ∧
      (g.withoutEpsilon.alternatives a).Pairwise fun variant later =>
        ∃ x, g.Shortens a x variant ∧ ∀ y, g.Shortens a y later → x.Before y := by
  refine ⟨?_, fun variant => ?_, ?_, pairwise_alternatives_withoutEpsilon hg a⟩
  · simp only [Alternative.foldl_lengthen_nil]
    exact alternatives_mapAlternatives g rfl a
  · rw [mem_alternatives_withoutEpsilon_iff hg, exists_shortens_iff]
  · rw [alternatives_withoutEpsilon_eq]
    exact nodup_eraseDups _

/-- Only `A` is nullable. Some forms of the alternatives of `S` come out in several ways. -/
def wavering : Grammar where
  nonterminals := ["S", "A"]
  terminals := ["a", "b"]
  rules := [
    ⟨"S", [[.nonterminal "A", .terminal "b", .nonterminal "A"],
      [.nonterminal "A", .nonterminal "A"], [.terminal "b"]]⟩,
    ⟨"A", [[.terminal "a"], []]⟩]
  start := "S"

theorem alternatives_wavering :
    wavering.withoutEpsilon.alternatives "S" =
      [[.nonterminal "A", .terminal "b", .nonterminal "A"], [.nonterminal "A", .terminal "b"],
        [.terminal "b", .nonterminal "A"], [.terminal "b"], [.nonterminal "A", .nonterminal "A"],
        [.nonterminal "A"]] := by
  decide +kernel

/-- The first alternative leaves `b` already, so `b` comes before the single `A`, which the second
alternative leaves in two ways. -/
theorem withoutEpsilon_wavering :
    wavering.WellFormed ∧
      (∃ alternative ∈ wavering.alternatives "S", ∃ dropped, wavering.MayDrop alternative dropped ∧
        alternative.dropping dropped = [.terminal "b", .nonterminal "A"]) ∧
      ∃ x, wavering.Shortens "S" x [.terminal "b"] ∧
        ∀ y, wavering.Shortens "S" y [.nonterminal "A"] → x.Before y := by
  have hg : wavering.WellFormed := by decide
  obtain ⟨_, hmem, _, hordered⟩ := withoutEpsilon_drops_in_order hg "S"
  rw [alternatives_wavering] at hmem hordered
  have hbefore := List.pairwise_iff_getElem.mp hordered 3 5 (by decide) (by decide) (by decide)
  exact ⟨hg, ((hmem [.terminal "b", .nonterminal "A"]).mp (by decide)).2, hbefore⟩

end Grammar

end ContextFree

import ContextFree.Grammar.DerivationTree

/-!
Derivation trees whose long alternatives are nested. An alternative of more than two symbols is seen
as a pair of which all symbols but the last are the first part, and so on. The height of a tree that
is seen in this way is told by the tree alone, without a name for any part.
-/

namespace ContextFree

/-- The height of an alternative whose symbols have the given heights when it is nested. In a pair,
terminals, of height zero, take a level of their own. -/
def nestedHeight : List Nat → Nat
  | [] => 0
  | [height] => height
  | first :: second :: rest =>
    rest.foldl (fun height next => max (height + 1) next) (max 1 (max first second))

theorem nestedHeight_concat {heights : List Nat} (h : 2 ≤ heights.length) (height : Nat) :
    nestedHeight (heights ++ [height]) = max (nestedHeight heights + 1) height := by
  match heights, h with
  | first :: second :: rest, _ => simp [nestedHeight]

namespace Grammar

variable {g : Grammar}

namespace Forest

variable {xs ys : List Symbol}

/-- The height of each tree of a row, where alternatives are nested. -/
def heights {xs : List Symbol} : Forest g xs → List Nat
  | nil => []
  | leaf _ siblings => 0 :: siblings.heights
  | node _ children siblings => (nestedHeight children.heights + 1) :: siblings.heights

/-- The height of a row that is nested as an alternative. -/
def height (t : Forest g xs) : Nat := nestedHeight t.heights

theorem length_heights (t : Forest g xs) : t.heights.length = xs.length := by
  induction t with
  | nil => rfl
  | leaf _ _ ih => simp [heights, ih]
  | node _ _ _ _ ih => simp [heights, ih]

theorem exists_append (t : Forest g xs) (t' : Forest g ys) :
    ∃ both : Forest g (xs ++ ys),
      both.yield = t.yield ++ t'.yield ∧ both.heights = t.heights ++ t'.heights := by
  induction t with
  | nil => exact ⟨t', rfl, rfl⟩
  | leaf a siblings ih =>
    obtain ⟨both, hyield, hheights⟩ := ih
    exact ⟨.leaf a both, by simp [yield, hyield], by simp [heights, hheights]⟩
  | node ha children siblings _ ih =>
    obtain ⟨both, hyield, hheights⟩ := ih
    exact ⟨.node ha children both, by simp [yield, hyield], by simp [heights, hheights]⟩

end Forest

/-- The alternative derives the sentence, and no path has more than the given number of nonterminals
when alternatives are nested. -/
inductive DerivesNested (g : Grammar) : Nat → Alternative → List Name → Prop where
  | nil {d : Nat} : DerivesNested g d [] []
  | terminal {d : Nat} {a : Name} : DerivesNested g d [.terminal a] [a]
  | nonterminal {d : Nat} {a : Name} {alternative : Alternative} {w : List Name} :
      alternative ∈ g.alternatives a → DerivesNested g d alternative w →
      DerivesNested g (d + 1) [.nonterminal a] w
  | pair {d : Nat} {first second : Symbol} {u w : List Name} :
      DerivesNested g (d + 1) [first] u → DerivesNested g (d + 1) [second] w →
      DerivesNested g (d + 1) [first, second] (u ++ w)
  | more {d : Nat} {word : List Symbol} {last : Symbol} {u w : List Name} :
      2 ≤ word.length → DerivesNested g d word u → DerivesNested g (d + 1) [last] w →
      DerivesNested g (d + 1) (word ++ [last]) (u ++ w)

variable {xs : List Symbol} {w : List Name}

theorem DerivesNested.mono {d e : Nat} (h : DerivesNested g d xs w) (hde : d ≤ e) :
    DerivesNested g e xs w := by
  induction h generalizing e with
  | nil => exact .nil
  | terminal => exact .terminal
  | nonterminal ha _ ih =>
    obtain ⟨e, rfl⟩ : ∃ k, e = k + 1 := ⟨e - 1, by omega⟩
    exact .nonterminal ha (ih (by omega))
  | pair _ _ ihu ihw =>
    obtain ⟨e, rfl⟩ : ∃ k, e = k + 1 := ⟨e - 1, by omega⟩
    exact .pair (ihu hde) (ihw hde)
  | more hlong _ _ ihu ihw =>
    obtain ⟨e, rfl⟩ : ∃ k, e = k + 1 := ⟨e - 1, by omega⟩
    exact .more hlong (ihu (by omega)) (ihw hde)

theorem derivesNested_nonterminal_iff {d : Nat} {a : Name} :
    DerivesNested g d [.nonterminal a] w ↔
      ∃ e, d = e + 1 ∧ ∃ alternative ∈ g.alternatives a, DerivesNested g e alternative w := by
  constructor
  · intro h
    generalize hxs : [Symbol.nonterminal a] = xs at h
    cases h with
    | nil => cases hxs
    | terminal => cases hxs
    | nonterminal ha hw =>
      cases hxs
      exact ⟨_, rfl, _, ha, hw⟩
    | pair => cases hxs
    | more hlong _ _ =>
      have hlength := congrArg List.length hxs
      rw [List.length_append, List.length_singleton, List.length_singleton] at hlength
      omega
  · rintro ⟨e, rfl, alternative, ha, hw⟩
    exact .nonterminal ha hw

/-- A pair has the larger of the heights of its parts, and is no terminal. -/
theorem DerivesNested.pair_max {d e : Nat} {first second : Symbol} {u v : List Name}
    (hu : DerivesNested g d [first] u) (hv : DerivesNested g e [second] v) :
    DerivesNested g (max 1 (max d e)) [first, second] (u ++ v) := by
  obtain ⟨k, hk⟩ : ∃ k, max 1 (max d e) = k + 1 := ⟨max 1 (max d e) - 1, by omega⟩
  rw [hk]
  exact .pair (hu.mono (by omega)) (hv.mono (by omega))

/-- One more symbol behind an alternative puts the others a level deeper. -/
theorem DerivesNested.more_max {d e : Nat} {word : List Symbol} {last : Symbol} {u v : List Name}
    (hlong : 2 ≤ word.length) (hu : DerivesNested g d word u) (hv : DerivesNested g e [last] v) :
    DerivesNested g (max (d + 1) e) (word ++ [last]) (u ++ v) := by
  obtain ⟨k, hk⟩ : ∃ k, max (d + 1) e = k + 1 := ⟨max (d + 1) e - 1, by omega⟩
  rw [hk]
  exact .more hlong (hu.mono (by omega)) (hv.mono (by omega))

/-- What a row of trees adds to the symbols in front of it. Nesting goes on from a part of at least
two symbols; behind a single symbol it begins. -/
structure Forest.Nests (t : Forest g xs) : Prop where
  more {d e : Nat} {word : List Symbol} {u : List Name} : 2 ≤ word.length →
    DerivesNested g d word u → t.heights.foldl (fun height next => max (height + 1) next) d ≤ e →
    DerivesNested g e (word ++ xs) (u ++ t.yield)
  cons {d e : Nat} {first : Symbol} {u : List Name} : DerivesNested g d [first] u →
    nestedHeight (d :: t.heights) ≤ e → DerivesNested g e (first :: xs) (u ++ t.yield)
  alone {e : Nat} : t.height ≤ e → DerivesNested g e xs t.yield

theorem Forest.Nests.of_cons {s : Symbol} {t : Forest g xs} {both : Forest g (s :: xs)} {d : Nat}
    {v : List Name} (ht : t.Nests) (hs : DerivesNested g d [s] v)
    (hyield : both.yield = v ++ t.yield) (hheights : both.heights = d :: t.heights) :
    both.Nests where
  more {_ e word u} hlong hword he := by
    rw [hheights, List.foldl_cons] at he
    rw [hyield, ← List.append_assoc, ← List.singleton_append, ← List.append_assoc]
    have hlonger : 2 ≤ (word ++ [s]).length := Nat.le_trans hlong (by simp)
    exact ht.more hlonger (.more_max hlong hword hs) he
  cons {_ e first u} hfirst he := by
    rw [hheights, nestedHeight] at he
    rw [hyield, ← List.append_assoc]
    exact ht.more (by simp) (.pair_max hfirst hs) he
  alone {e} he := by
    rw [hyield]
    exact ht.cons hs (by rwa [height, hheights] at he)

theorem Forest.nests (t : Forest g xs) : t.Nests := by
  induction t with
  | nil =>
    refine ⟨fun _ hword he => ?_, fun hfirst he => ?_, fun _ => .nil⟩
    · simpa [yield] using hword.mono he
    · simpa [yield] using hfirst.mono he
  | leaf a siblings ih => exact ih.of_cons (d := 0) .terminal rfl rfl
  | node ha children siblings ihc ihs =>
    exact ihs.of_cons (.nonterminal ha (ihc.alone (Nat.le_refl _))) rfl rfl

/-- The nested derivations are the trees of bounded height. -/
theorem derivesNested_iff_exists_tree {d : Nat} :
    DerivesNested g d xs w ↔ ∃ t : Forest g xs, t.yield = w ∧ t.height ≤ d := by
  constructor
  · intro h
    induction h with
    | nil => exact ⟨.nil, rfl, Nat.zero_le _⟩
    | terminal => exact ⟨.leaf _ .nil, rfl, Nat.zero_le _⟩
    | nonterminal ha _ ih =>
      obtain ⟨children, rfl, hchildren⟩ := ih
      exact ⟨.node ha children .nil, by simp [Forest.yield], Nat.succ_le_succ hchildren⟩
    | @pair d first second _ _ _ _ ihu ihw =>
      obtain ⟨t, rfl, ht⟩ := ihu
      obtain ⟨t', rfl, ht'⟩ := ihw
      obtain ⟨both, hyield, hheights⟩ := t.exists_append t'
      obtain ⟨k, hk⟩ := List.length_eq_one_iff.mp t.length_heights
      obtain ⟨k', hk'⟩ := List.length_eq_one_iff.mp t'.length_heights
      refine ⟨both, hyield, ?_⟩
      simp only [Forest.height, hheights, hk, hk', nestedHeight, List.singleton_append,
        List.foldl_nil] at ht ht' ⊢
      omega
    | @more d word last _ _ hlong _ _ ihu ihw =>
      obtain ⟨t, rfl, ht⟩ := ihu
      obtain ⟨t', rfl, ht'⟩ := ihw
      obtain ⟨both, hyield, hheights⟩ := t.exists_append t'
      obtain ⟨k', hk'⟩ := List.length_eq_one_iff.mp t'.length_heights
      refine ⟨both, hyield, ?_⟩
      rw [Forest.height, hk', nestedHeight] at ht'
      rw [Forest.height] at ht
      rw [Forest.height, hheights, hk', nestedHeight_concat (t.length_heights ▸ hlong)]
      omega
  · rintro ⟨t, rfl, ht⟩
    exact t.nests.alone ht

/-- Each symbol behind the second one takes a level more. -/
theorem DerivesNested.length_le {d : Nat} (h : DerivesNested g d xs w) : xs.length ≤ d + 1 := by
  induction h with
  | nil => exact Nat.zero_le _
  | terminal => simp
  | nonterminal => simp
  | pair => simp
  | more _ _ _ ih _ =>
    rw [List.length_append, List.length_singleton]
    omega

end Grammar

end ContextFree

import ContextFree.Grammar.Derivation

/-!
Derivations as trees. The trees of a grammar carry the alternatives that they use, so there are no
others than those that the grammar allows.
-/

namespace ContextFree

namespace Grammar

variable {g : Grammar}

/-- Trees under a row of symbols, one for each: a terminal is a leaf, and under a nonterminal stand
the trees of one of its alternatives. -/
inductive Forest (g : Grammar) : List Symbol → Type where
  | nil : Forest g []
  | leaf (a : Name) {rest : List Symbol} (siblings : Forest g rest) : Forest g (.terminal a :: rest)
  | node {a : Name} {alternative : Alternative} {rest : List Symbol}
      (h : alternative ∈ g.alternatives a) (children : Forest g alternative)
      (siblings : Forest g rest) : Forest g (.nonterminal a :: rest)

/-- A derivation tree with the nonterminal at its root. -/
abbrev Tree (g : Grammar) (a : Name) : Type := Forest g [.nonterminal a]

namespace Forest

variable {xs : List Symbol}

/-- The terminals at the leaves, from left to right. -/
def yield {xs : List Symbol} : Forest g xs → List Name
  | nil => []
  | leaf a siblings => a :: siblings.yield
  | node _ children siblings => children.yield ++ siblings.yield

/-- The nonterminals along each way down from a root, wherever the way ends. -/
def paths {xs : List Symbol} : Forest g xs → List (List Name)
  | nil => []
  | leaf _ siblings => siblings.paths
  | node (a := a) _ children siblings => [a] :: children.paths.map (a :: ·) ++ siblings.paths

/-- No path has more nonterminals than the given number. -/
def Within (t : Forest g xs) (d : Nat) : Prop := ∀ path ∈ t.paths, path.length ≤ d

instance (t : Forest g xs) (d : Nat) : Decidable (t.Within d) :=
  inferInstanceAs (Decidable (∀ path ∈ t.paths, path.length ≤ d))

@[simp] theorem within_nil {d : Nat} : (nil : Forest g []).Within d := by simp [Within, paths]

@[simp] theorem within_leaf_iff {a : Name} {siblings : Forest g xs} {d : Nat} :
    (leaf a siblings).Within d ↔ siblings.Within d := Iff.rfl

theorem within_node_iff {a : Name} {alternative : Alternative}
    {h : alternative ∈ g.alternatives a} {children : Forest g alternative}
    {siblings : Forest g xs} {d : Nat} :
    (node h children siblings).Within d ↔
      ∃ e, d = e + 1 ∧ children.Within e ∧ siblings.Within d := by
  simp only [Within, paths, List.forall_mem_append, List.forall_mem_cons, List.forall_mem_map,
    List.length_cons]
  constructor
  · intro h'
    obtain ⟨⟨hd, hchildren⟩, hsiblings⟩ := h'
    refine ⟨d - 1, by omega, fun path hpath => ?_, hsiblings⟩
    exact Nat.le_sub_one_of_lt (hchildren path hpath)
  · rintro ⟨e, rfl, hchildren, hsiblings⟩
    refine ⟨⟨by simp, fun path hpath => ?_⟩, hsiblings⟩
    exact Nat.succ_le_succ (hchildren path hpath)

end Forest

/-- The bounded derivations are the trees of bounded depth. -/
theorem derivesWithin_iff_exists_tree {d : Nat} {xs : List Symbol} {w : List Name} :
    DerivesWithin g d xs w ↔ ∃ t : Forest g xs, t.yield = w ∧ t.Within d := by
  constructor
  · intro h
    induction h with
    | nil => exact ⟨.nil, rfl, Forest.within_nil⟩
    | terminal _ ih =>
      obtain ⟨t, rfl, ht⟩ := ih
      exact ⟨.leaf _ t, rfl, Forest.within_leaf_iff.mpr ht⟩
    | nonterminal ha _ _ ihu ihw =>
      obtain ⟨children, rfl, hchildren⟩ := ihu
      obtain ⟨siblings, rfl, hsiblings⟩ := ihw
      exact ⟨.node ha children siblings, rfl,
        Forest.within_node_iff.mpr ⟨_, rfl, hchildren, hsiblings⟩⟩
  · intro h'
    obtain ⟨t, rfl, ht⟩ := h'
    induction t generalizing d with
    | nil => exact .nil
    | leaf a siblings ih => exact .terminal (ih (Forest.within_leaf_iff.mp ht))
    | node ha children siblings ihc ihs =>
      obtain ⟨e, rfl, hchildren, hsiblings⟩ := Forest.within_node_iff.mp ht
      exact .nonterminal ha (ihc hchildren) (ihs hsiblings)

end Grammar

end ContextFree

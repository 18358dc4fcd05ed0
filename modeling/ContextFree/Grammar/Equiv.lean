import ContextFree.Grammar.Basic

/-! Grammars that differ only in the order of their rules, alternatives and terminals. -/

namespace ContextFree

def SameMembers {α : Type} (xs ys : List α) : Prop := (∀ x ∈ xs, x ∈ ys) ∧ (∀ y ∈ ys, y ∈ xs)

instance {α : Type} [DecidableEq α] (xs ys : List α) : Decidable (SameMembers xs ys) :=
  inferInstanceAs (Decidable (_ ∧ _))

namespace SameMembers

variable {α : Type} {xs ys zs : List α}

theorem refl (xs : List α) : SameMembers xs xs := ⟨fun _ h => h, fun _ h => h⟩

theorem symm (h : SameMembers xs ys) : SameMembers ys xs := ⟨h.2, h.1⟩

theorem trans (h : SameMembers xs ys) (h' : SameMembers ys zs) : SameMembers xs zs :=
  ⟨fun x hx => h'.1 x (h.1 x hx), fun z hz => h.2 z (h'.2 z hz)⟩

theorem of_iff (h : ∀ x, x ∈ xs ↔ x ∈ ys) : SameMembers xs ys :=
  ⟨fun x => (h x).mp, fun x => (h x).mpr⟩

theorem mem_iff (h : SameMembers xs ys) (x : α) : x ∈ xs ↔ x ∈ ys := ⟨h.1 x, h.2 x⟩

theorem of_perm (h : xs.Perm ys) : SameMembers xs ys := of_iff fun _ => h.mem_iff

theorem eraseDups [BEq α] [LawfulBEq α] (h : SameMembers xs ys) :
    SameMembers xs.eraseDups ys.eraseDups := by
  refine of_iff fun x => ?_
  rw [List.mem_eraseDups, List.mem_eraseDups, h.mem_iff]

end SameMembers

namespace Grammar

/-- The order of the rules does not matter for what a name finds. -/
theorem alternatives_eq_of_perm {g k : Grammar} (hg : g.ruleNames.Nodup)
    (h : k.rules.Perm g.rules) (a : Name) : k.alternatives a = g.alternatives a := by
  have hnames : k.ruleNames.Perm g.ruleNames := h.map Rule.name
  have hk : k.ruleNames.Nodup := hnames.nodup_iff.mpr hg
  by_cases ha : a ∈ g.ruleNames
  · obtain ⟨r, hr, rfl⟩ := mem_ruleNames.mp ha
    rw [alternatives_name hg hr, alternatives_name hk (h.mem_iff.mpr hr)]
  · rw [alternatives_eq_nil ha, alternatives_eq_nil fun hmem => ha (hnames.mem_iff.mp hmem)]

/-- The same start symbol, the same symbols, and for every nonterminal the same alternatives. The
symbols inside an alternative do keep their order. -/
def Equiv (g h : Grammar) : Prop :=
  g.start = h.start ∧ SameMembers g.terminals h.terminals ∧
    SameMembers g.nonterminals h.nonterminals ∧ SameMembers g.ruleNames h.ruleNames ∧
    ∀ a ∈ g.ruleNames, SameMembers (g.alternatives a) (h.alternatives a)

instance (g h : Grammar) : Decidable (Equiv g h) := inferInstanceAs (Decidable (_ ∧ _))

theorem Equiv.refl (g : Grammar) : Equiv g g :=
  ⟨rfl, .refl _, .refl _, .refl _, fun _ _ => .refl _⟩

theorem Equiv.symm {g h : Grammar} (e : Equiv g h) : Equiv h g :=
  ⟨e.1.symm, e.2.1.symm, e.2.2.1.symm, e.2.2.2.1.symm,
    fun a ha => (e.2.2.2.2 a (e.2.2.2.1.2 a ha)).symm⟩

theorem Equiv.trans {g h k : Grammar} (e : Equiv g h) (e' : Equiv h k) : Equiv g k :=
  ⟨e.1.trans e'.1, e.2.1.trans e'.2.1, e.2.2.1.trans e'.2.2.1, e.2.2.2.1.trans e'.2.2.2.1,
    fun a ha => (e.2.2.2.2 a ha).trans (e'.2.2.2.2 a (e.2.2.2.1.1 a ha))⟩

end Grammar

end ContextFree

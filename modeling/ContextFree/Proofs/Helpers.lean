import ContextFree.Grammar.WellFormed
import ContextFree.NormalForm.Binary
import ContextFree.Proofs.Derivation
import ContextFree.Proofs.SpareName
import ContextFree.Proofs.Traverse

/-!
The helpers of a round. They take the free names in order, no two of them have the same alternative,
and they mention only symbols of the grammar and helpers. A helper may stand wherever its
alternative does.
-/

namespace ContextFree

open Grammar

namespace Helpers

variable {g k : Grammar} {helpers : Helpers} {Key : Alternative → Prop}

/-- The symbol is one of the grammar's or stands for a helper. -/
def Knows (helpers : Helpers) (g : Grammar) (s : Symbol) : Prop :=
  g.HasSymbol s ∨ ∃ a ∈ helpers.names, s = .nonterminal a

structure Valid (g : Grammar) (Key : Alternative → Prop) (helpers : Helpers) : Prop where
  names_append_free : helpers.names ++ helpers.free = g.freeNames
  nodup_keys : (helpers.made.map Prod.fst).Nodup
  knows : ∀ entry ∈ helpers.made, ∀ s ∈ entry.1, helpers.Knows g s
  key : ∀ entry ∈ helpers.made, Key entry.1

theorem mem_made_of_name? {alternative : Alternative} {a : Name}
    (h : helpers.name? alternative = some a) : (alternative, a) ∈ helpers.made := by
  obtain ⟨before, behind, heq, _⟩ := List.lookup_eq_some_iff.mp h
  simp [heq]

theorem rule_mem_of_name? {alternative : Alternative} {a : Name}
    (h : helpers.name? alternative = some a) : ⟨a, [alternative]⟩ ∈ helpers.rules :=
  List.mem_map_of_mem (f := fun entry => Rule.mk entry.2 [entry.1]) (mem_made_of_name? h)

theorem mem_names_of_name? {alternative : Alternative} {a : Name}
    (h : helpers.name? alternative = some a) : a ∈ helpers.names :=
  List.mem_map_of_mem (f := Prod.snd) (mem_made_of_name? h)

theorem Knows.mono {helpers' : Helpers} (hsub : helpers.names ⊆ helpers'.names) {s : Symbol}
    (h : helpers.Knows g s) : helpers'.Knows g s :=
  h.imp_right fun ⟨a, ha, hs⟩ => ⟨a, hsub ha, hs⟩

theorem knows_of_name? {alternative : Alternative} {a : Name}
    (h : helpers.name? alternative = some a) : helpers.Knows g (.nonterminal a) :=
  .inr ⟨a, mem_names_of_name? h, rfl⟩

/-- Making a helper changes nothing or gives the first free name to a new alternative. -/
theorem make_cases (helpers : Helpers) (alternative : Alternative) :
    helpers.make alternative = helpers ∨
      ∃ a free, helpers.name? alternative = none ∧ helpers.free = a :: free ∧
        helpers.make alternative = ⟨helpers.made ++ [(alternative, a)], free⟩ := by
  unfold make
  split
  next a free hnone hfree => exact .inr ⟨a, free, hnone, hfree, rfl⟩
  next => exact .inl rfl

theorem names_subset_make (helpers : Helpers) (alternative : Alternative) :
    helpers.names ⊆ (helpers.make alternative).names := by
  rcases helpers.make_cases alternative with h | ⟨a, free, _, _, h⟩
  · rw [h]
    exact List.Subset.refl _
  · rw [h]
    simp [names]

theorem Valid.make (hv : Valid g Key helpers) {alternative : Alternative} (hkey : Key alternative)
    (hs : ∀ s ∈ alternative, helpers.Knows g s) : Valid g Key (helpers.make alternative) := by
  have hsub := helpers.names_subset_make alternative
  rcases helpers.make_cases alternative with h | ⟨a, free, hnone, hfree, h⟩
  · rwa [h]
  · rw [h] at hsub ⊢
    constructor
    case names_append_free =>
      have hnames := hv.names_append_free
      rw [hfree] at hnames
      simpa [names] using hnames
    case nodup_keys =>
      rw [List.map_append, List.map_singleton, List.nodup_append]
      refine ⟨hv.nodup_keys, List.nodup_singleton _, ?_⟩
      intro key hmem other hother heq
      obtain ⟨entry, hentry, rfl⟩ := List.mem_map.mp hmem
      obtain rfl := List.mem_singleton.mp hother
      have hne := List.lookup_eq_none_iff.mp hnone entry hentry
      simp [heq] at hne
    case knows =>
      intro entry hentry s hmem
      rcases List.mem_append.mp hentry with hentry | hentry
      · exact (hv.knows entry hentry s hmem).mono hsub
      · obtain rfl := List.mem_singleton.mp hentry
        exact (hs s hmem).mono hsub
    case key =>
      intro entry hentry
      rcases List.mem_append.mp hentry with hentry | hentry
      · exact hv.key entry hentry
      · obtain rfl := List.mem_singleton.mp hentry
        exact hkey

theorem valid_initial (g : Grammar) (Key : Alternative → Prop) :
    Valid g Key ⟨[], g.freeNames⟩ := by
  constructor <;> simp [names]

/-- A helper that is made for each alternative of a grammar, whatever the helpers made before. -/
theorem Valid.foldl {make : Helpers → Alternative → Helpers}
    (hmake : ∀ helpers alternative, Valid g Key helpers →
      (∀ s ∈ alternative, g.HasSymbol s) → Valid g Key (make helpers alternative))
    {alternatives : List Alternative}
    (hs : ∀ alternative ∈ alternatives, ∀ s ∈ alternative, g.HasSymbol s)
    (hv : Valid g Key helpers) : Valid g Key (alternatives.foldl make helpers) := by
  induction alternatives generalizing helpers with
  | nil => exact hv
  | cons alternative rest ih =>
    obtain ⟨halternative, hrest⟩ := List.forall_mem_cons.mp hs
    exact ih hrest (hmake helpers alternative hv halternative)

namespace Valid

theorem mem_freeNames (hv : Valid g Key helpers) {a : Name} (ha : a ∈ helpers.names) :
    a ∈ g.freeNames :=
  hv.names_append_free ▸ List.mem_append_left _ ha

theorem nodup_names (hv : Valid g Key helpers) : helpers.names.Nodup := by
  have hfree := g.nodup_freeNames
  rw [← hv.names_append_free] at hfree
  exact (List.nodup_append.mp hfree).1

/-- No helper has two alternatives. -/
theorem key_unique (hv : Valid g Key helpers) {key key' : Alternative} {a : Name}
    (h : (key, a) ∈ helpers.made) (h' : (key', a) ∈ helpers.made) : key = key' :=
  congrArg Prod.fst (List.inj_on_of_nodup_map hv.nodup_names h h' rfl)

theorem notMem_nonterminals (hv : Valid g Key helpers) {a : Name} (ha : a ∈ helpers.names) :
    a ∉ g.nonterminals := (Grammar.mem_freeNames.mp (hv.mem_freeNames ha)).2.1

end Valid

/-- The helpers have the sentences of their alternatives. -/
def StandFor (helpers : Helpers) (k : Grammar) : Prop :=
  ∀ alternative a, helpers.name? alternative = some a →
    ∀ w, k.Generates a w ↔ Derives k alternative w

theorem standFor_of_rules (hk : k.ruleNames.Nodup) (hrules : helpers.rules ⊆ k.rules) :
    helpers.StandFor k := by
  intro alternative a h w
  have hr : ⟨a, [alternative]⟩ ∈ k.rules := hrules (rule_mem_of_name? h)
  have halternatives : k.alternatives a = [alternative] := alternatives_name hk hr
  rw [generates_iff, halternatives]
  simp

/-- What a round relies on: helpers are made for symbols that are known, and putting them in
changes neither that nor what an alternative derives. -/
structure Fits (Key : Alternative → Prop) (make : Helpers → Alternative → Helpers)
    (change : Helpers → Alternative → Option Alternative) : Prop where
  valid {g : Grammar} {helpers : Helpers} {alternative : Alternative} :
    Valid g Key helpers → (∀ s ∈ alternative, g.HasSymbol s) →
    Valid g Key (make helpers alternative)
  knows {g : Grammar} {helpers : Helpers} {alternative changed : Alternative} :
    change helpers alternative = some changed → (∀ s ∈ alternative, helpers.Knows g s) →
    ∀ s ∈ changed, helpers.Knows g s
  derives {k : Grammar} {helpers : Helpers} {alternative changed : Alternative} :
    change helpers alternative = some changed → helpers.StandFor k →
    ∀ w, Derives k changed w ↔ Derives k alternative w

end Helpers

end ContextFree

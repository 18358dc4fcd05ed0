import ContextFree.Grammar.Declaration

/-! What every grammar satisfies that was declared or read: see `Grammar.WellFormed`. -/

namespace ContextFree

namespace Grammar

/-- Whether a symbol is declared, and as the kind that it has. -/
def HasSymbol (g : Grammar) : Symbol → Prop
  | .terminal a => a ∈ g.terminals
  | .nonterminal a => a ∈ g.nonterminals

instance (g : Grammar) : (s : Symbol) → Decidable (g.HasSymbol s)
  | .terminal a => inferInstanceAs (Decidable (a ∈ g.terminals))
  | .nonterminal a => inferInstanceAs (Decidable (a ∈ g.nonterminals))

theorem HasSymbol.mono {g k : Grammar} {s : Symbol} (h : g.HasSymbol s)
    (hterminals : g.terminals ⊆ k.terminals)
    (hnonterminals : ∀ a, s = .nonterminal a → a ∈ g.nonterminals → a ∈ k.nonterminals) :
    k.HasSymbol s := by
  cases s with
  | terminal a => exact hterminals h
  | nonterminal a => exact hnonterminals a rfl h

/-- The rules are those of the nonterminals, in the same order. The start symbol is a nonterminal,
no name is of both kinds, every symbol in an alternative is declared, all names can be written, and
nothing is listed twice. -/
structure WellFormed (g : Grammar) : Prop where
  ruleNames_eq : g.ruleNames = g.nonterminals
  nodup_nonterminals : g.nonterminals.Nodup
  nodup_terminals : g.terminals.Nodup
  start_mem : g.start ∈ g.nonterminals
  not_mem_terminals : ∀ a ∈ g.nonterminals, a ∉ g.terminals
  hasSymbol : ∀ r ∈ g.rules, ∀ alternative ∈ r.alternatives, ∀ s ∈ alternative, g.HasSymbol s
  nodup_alternatives : ∀ r ∈ g.rules, r.alternatives.Nodup
  bare_nonterminal : ∀ a ∈ g.nonterminals, isBareName a = true
  quotable_terminal : ∀ a ∈ g.terminals, isQuotableName a = true

instance (g : Grammar) : Decidable g.WellFormed :=
  decidable_of_iff
    (g.ruleNames = g.nonterminals ∧ g.nonterminals.Nodup ∧ g.terminals.Nodup ∧
      g.start ∈ g.nonterminals ∧
      (∀ a ∈ g.nonterminals, a ∉ g.terminals) ∧
      (∀ r ∈ g.rules, ∀ alternative ∈ r.alternatives, ∀ s ∈ alternative, g.HasSymbol s) ∧
      (∀ r ∈ g.rules, r.alternatives.Nodup) ∧
      (∀ a ∈ g.nonterminals, isBareName a = true) ∧
      ∀ a ∈ g.terminals, isQuotableName a = true)
    ⟨fun ⟨h₁, h₂, h₃, h₄, h₅, h₆, h₇, h₈, h₉⟩ => ⟨h₁, h₂, h₃, h₄, h₅, h₆, h₇, h₈, h₉⟩,
      fun h => ⟨h.1, h.2, h.3, h.4, h.5, h.6, h.7, h.8, h.9⟩⟩

namespace WellFormed

variable {g : Grammar}

theorem nodup_ruleNames (hg : g.WellFormed) : g.ruleNames.Nodup :=
  hg.ruleNames_eq ▸ hg.nodup_nonterminals

theorem name_mem_nonterminals (hg : g.WellFormed) {r : Rule} (hr : r ∈ g.rules) :
    r.name ∈ g.nonterminals :=
  hg.ruleNames_eq ▸ mem_ruleNames.mpr ⟨r, hr, rfl⟩

theorem alternatives?_eq_none_iff (hg : g.WellFormed) {a : Name} :
    g.alternatives? a = none ↔ a ∉ g.nonterminals := by
  rw [Grammar.alternatives?_eq_none_iff, hg.ruleNames_eq]

theorem mem_nonterminals (hg : g.WellFormed) {a : Name} {alternative : Alternative}
    (h : alternative ∈ g.alternatives a) : a ∈ g.nonterminals := by
  obtain ⟨r, hr, rfl, _⟩ := exists_rule h
  exact hg.name_mem_nonterminals hr

theorem hasSymbol_of_mem (hg : g.WellFormed) {a : Name} {alternative : Alternative}
    (h : alternative ∈ g.alternatives a) {s : Symbol} (hs : s ∈ alternative) :
    g.HasSymbol s := by
  obtain ⟨r, hr, _, ha⟩ := exists_rule h
  exact hg.hasSymbol r hr alternative ha s hs

theorem nodup_of_name (hg : g.WellFormed) (a : Name) : (g.alternatives a).Nodup := by
  by_cases ha : a ∈ g.ruleNames
  · obtain ⟨r, hr, rfl⟩ := mem_ruleNames.mp ha
    rw [alternatives_name hg.nodup_ruleNames hr]
    exact hg.nodup_alternatives r hr
  · rw [alternatives_eq_nil ha]
    exact List.nodup_nil

end WellFormed

/-- A property of alternatives can be checked rule by rule or name by name. -/
theorem forall_alternatives_iff {g : Grammar} (hg : g.WellFormed) {P : Alternative → Prop} :
    (∀ r ∈ g.rules, ∀ alternative ∈ r.alternatives, P alternative) ↔
      ∀ a, ∀ alternative ∈ g.alternatives a, P alternative := by
  constructor
  · intro h a alternative ha
    obtain ⟨r, hr, _, hmem⟩ := exists_rule ha
    exact h r hr alternative hmem
  · intro h r hr alternative ha
    rw [← alternatives_name hg.nodup_ruleNames hr] at ha
    exact h r.name alternative ha

end Grammar

end ContextFree

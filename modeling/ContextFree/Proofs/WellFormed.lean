import ContextFree.Grammar.WellFormed
import ContextFree.Proofs.SpareName

/-! When a grammar whose rules were changed is still well-formed. -/

namespace ContextFree

namespace Grammar.WellFormed

variable {g k : Grammar}

/-- What every operation has to show: it keeps the start symbol and the terminals, has no new
nonterminals but free names, and keeps the rules in line with the nonterminals. -/
theorem change (hg : g.WellFormed) (hstart : k.start = g.start)
    (hterminals : k.terminals = g.terminals)
    (hnonterminals : ∀ a ∈ k.nonterminals, a ∈ g.nonterminals ∨ a ∈ g.freeNames)
    (hnodup : k.nonterminals.Nodup) (hmem : g.start ∈ k.nonterminals)
    (hnames : k.ruleNames = k.nonterminals)
    (hsymbol : ∀ r ∈ k.rules, ∀ alternative ∈ r.alternatives, ∀ s ∈ alternative, k.HasSymbol s)
    (halternatives : ∀ r ∈ k.rules, r.alternatives.Nodup) : k.WellFormed where
  ruleNames_eq := hnames
  nodup_nonterminals := hnodup
  nodup_terminals := hterminals ▸ hg.nodup_terminals
  start_mem := hstart ▸ hmem
  not_mem_terminals a ha := by
    rw [hterminals]
    rcases hnonterminals a ha with ha | ha
    · exact hg.not_mem_terminals a ha
    · exact (mem_freeNames.mp ha).2.2
  hasSymbol := hsymbol
  nodup_alternatives := halternatives
  bare_nonterminal a ha := by
    rcases hnonterminals a ha with ha | ha
    · exact hg.bare_nonterminal a ha
    · exact isBareName_of_mem_spareNames (mem_freeNames.mp ha).1
  quotable_terminal a ha := hg.quotable_terminal a (hterminals ▸ ha)

/-- Changing the alternatives of rules only. -/
theorem change_alternatives (hg : g.WellFormed) (hstart : k.start = g.start)
    (hterminals : k.terminals = g.terminals) (hnonterminals : k.nonterminals = g.nonterminals)
    (hnames : k.ruleNames = g.ruleNames)
    (hsymbol : ∀ a, ∀ alternative ∈ k.alternatives a, ∀ s ∈ alternative, g.HasSymbol s)
    (halternatives : ∀ a, (k.alternatives a).Nodup) : k.WellFormed := by
  have hk : k.ruleNames.Nodup := hnames ▸ hg.nodup_ruleNames
  refine hg.change hstart hterminals (fun a ha => .inl (hnonterminals ▸ ha)) ?_ ?_ ?_ ?_ ?_
  · exact hnonterminals ▸ hg.nodup_nonterminals
  · exact hnonterminals ▸ hg.start_mem
  · rw [hnames, hnonterminals, hg.ruleNames_eq]
  · intro r hr alternative ha s hs
    rw [← alternatives_name hk hr] at ha
    apply (hsymbol r.name alternative ha s hs).mono
    · simp [hterminals]
    · simp [hnonterminals]
  · intro r hr
    exact alternatives_name hk hr ▸ halternatives r.name

/-- Changing the alternatives of rules, and adding rules for free names. -/
theorem extend (hg : g.WellFormed) (rules added : List Rule) (hstart : k.start = g.start)
    (hterminals : k.terminals = g.terminals)
    (hnonterminals : k.nonterminals = g.nonterminals ++ added.map Rule.name)
    (hrules : k.rules = rules ++ added) (hnames : rules.map Rule.name = g.ruleNames)
    (hnodup : (added.map Rule.name).Nodup) (hfree : ∀ r ∈ added, r.name ∈ g.freeNames)
    (hsymbol : ∀ r ∈ k.rules, ∀ alternative ∈ r.alternatives, ∀ s ∈ alternative, k.HasSymbol s)
    (halternatives : ∀ r ∈ k.rules, r.alternatives.Nodup) : k.WellFormed := by
  have hnew : ∀ a ∈ added.map Rule.name, a ∈ g.freeNames := by
    intro a ha
    obtain ⟨r, hr, rfl⟩ := List.mem_map.mp ha
    exact hfree r hr
  refine hg.change hstart hterminals ?_ ?_ ?_ ?_ hsymbol halternatives
  · intro a ha
    rw [hnonterminals] at ha
    exact (List.mem_append.mp ha).imp_right (hnew a)
  · rw [hnonterminals, List.nodup_append]
    refine ⟨hg.nodup_nonterminals, hnodup, ?_⟩
    rintro a ha b hb rfl
    exact (mem_freeNames.mp (hnew a hb)).2.1 ha
  · rw [hnonterminals]
    exact List.mem_append_left _ hg.start_mem
  · rw [ruleNames, hrules, List.map_append, hnames, hg.ruleNames_eq, hnonterminals]

/-- Taking nonterminals out that the alternatives which are left do not mention. -/
theorem prune (hg : g.WellFormed) {names : List Name} (hstart : k.start = g.start)
    (hterminals : k.terminals = g.terminals)
    (hnonterminals : k.nonterminals = (g.restrict names).nonterminals)
    (hnames : k.ruleNames = (g.restrict names).ruleNames)
    (hsublist : ∀ a, (k.alternatives a).Sublist (g.alternatives a))
    (hclosed : ∀ a, ∀ alternative ∈ k.alternatives a, ∀ b, .nonterminal b ∈ alternative →
      b ∉ g.outside names) : k.WellFormed := by
  have hsame : k.ruleNames = k.nonterminals := by
    rw [hnames, hnonterminals, restrict, ruleNames_without, hg.ruleNames_eq]
    rfl
  have hmem (a : Name) : a ∈ k.nonterminals ↔ a ∈ g.nonterminals ∧ a ∉ g.outside names := by
    simp [hnonterminals, restrict, without]
  have hk : k.ruleNames.Nodup := by
    rw [hsame, hnonterminals]
    exact hg.nodup_nonterminals.filter _
  refine hg.change hstart hterminals (fun a ha => .inl ((hmem a).mp ha).1) (hsame ▸ hk) ?_ hsame
    ?_ ?_
  · exact (hmem _).mpr ⟨hg.start_mem, fun h => (mem_outside.mp h).2.1 rfl⟩
  · intro r hr alternative ha s hs
    rw [← alternatives_name hk hr] at ha
    have h := hg.hasSymbol_of_mem ((hsublist r.name).subset ha) hs
    apply h.mono
    · simp [hterminals]
    · rintro a rfl ha'
      exact (hmem a).mpr ⟨ha', hclosed r.name alternative ha a hs⟩
  · intro r hr
    exact alternatives_name hk hr ▸ (hg.nodup_of_name r.name).sublist (hsublist r.name)

end Grammar.WellFormed

end ContextFree

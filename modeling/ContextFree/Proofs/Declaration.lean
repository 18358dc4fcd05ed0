import ContextFree.Grammar.WellFormed
import ContextFree.Proofs.EraseDups
import ContextFree.Proofs.Traverse

/-! Which declarations give a grammar, which grammar that is, and that it is well-formed. -/

namespace ContextFree

/-- Where a rule is made for each of some names, these names have the alternatives that they were
given. -/
theorem Grammar.alternatives?_of_rules {g : Grammar} {names : List Name}
    {f : Name → List Alternative} (h : g.rules = names.map fun a => ⟨a, f a⟩) (a : Name) :
    g.alternatives? a = if a ∈ names then some (f a) else none := by
  rw [alternatives?, h]
  clear h
  induction names with
  | nil => rfl
  | cons b rest ih =>
    by_cases hb : b = a
    · simp [hb]
    · simpa [hb, Ne.symm hb] using ih

namespace Declaration

variable {d : Declaration}

theorem nameFault?_eq_none_iff :
    d.nameFault? = none ↔
      (∀ a ∈ d.nonterminals, isBareName a = true) ∧
      (∀ a ∈ d.terminals, isQuotableName a = true) ∧
      (∀ a ∈ d.nonterminals, a ∉ d.terminals) ∧ d.start ∈ d.nonterminals := by
  simp [nameFault?]

/-- The symbol that a declared name stands for; a name of both kinds counts as a nonterminal. -/
theorem symbol_eq_ok_iff {a : Name} {s : Symbol} :
    d.symbol a = .ok s ↔
      (a ∈ d.nonterminals ∧ s = .nonterminal a) ∨
      (a ∉ d.nonterminals ∧ a ∈ d.terminals ∧ s = .terminal a) := by
  rw [symbol]
  split_ifs with hn ht
  · simp [hn, eq_comm]
  · simp [hn, ht, eq_comm]
  · simp [hn, ht]

theorem rule_eq_ok_iff {entry : Name × List (List Name)} {r : Rule} :
    d.rule entry = .ok r ↔
      entry.1 ∈ d.nonterminals ∧ r.name = entry.1 ∧
        List.Forall₂ (List.Forall₂ fun a s => d.symbol a = .ok s) entry.2 r.alternatives := by
  obtain ⟨name, alternatives⟩ := r
  simp only [rule, bind_eq_ok_iff, mapM_eq_ok_iff]
  constructor
  · intro h'
    obtain ⟨xs, hxs, h⟩ := h'
    split_ifs at h with hn
    obtain ⟨rfl, rfl⟩ := Rule.mk.inj (Except.ok.inj h)
    exact ⟨hn, rfl, hxs⟩
  · intro h'
    obtain ⟨hn, rfl, h⟩ := h'
    exact ⟨alternatives, h, by rw [if_pos hn]; rfl⟩

theorem toGrammar_eq_ok_iff {g : Grammar} :
    d.toGrammar = .ok g ↔
      d.nameFault? = none ∧
        ∃ entries, List.Forall₂ (fun e r => d.rule e = .ok r) d.rules entries ∧
          g = d.grammar entries := by
  rw [toGrammar]
  cases d.nameFault? with
  | some fault => simp
  | none =>
    simp only [bind_eq_ok_iff, mapM_eq_ok_iff, true_and]
    constructor
    · intro h'
      obtain ⟨entries, h, hg⟩ := h'
      exact ⟨entries, h, (Except.ok.inj hg).symm⟩
    · intro h'
      obtain ⟨entries, h, rfl⟩ := h'
      exact ⟨entries, h, rfl⟩

theorem mem_collect {entries : List Rule} {a : Name} {alternative : Alternative} :
    alternative ∈ collect entries a ↔
      ∃ r ∈ entries, r.name = a ∧ alternative ∈ r.alternatives := by
  simp [collect, List.mem_eraseDups, and_assoc]

/-- Every symbol of an entry that was read is declared. -/
theorem hasSymbol_of_rule {entries : List Rule} {entry : Name × List (List Name)} {r : Rule}
    (h : d.rule entry = .ok r) {alternative : Alternative} (ha : alternative ∈ r.alternatives)
    {s : Symbol} (hs : s ∈ alternative) : (d.grammar entries).HasSymbol s := by
  obtain ⟨_, _, halternatives⟩ := rule_eq_ok_iff.mp h
  obtain ⟨names, _, hnames⟩ := Forall₂.exists_left halternatives ha
  obtain ⟨a, _, hsymbol⟩ := Forall₂.exists_left hnames hs
  rcases symbol_eq_ok_iff.mp hsymbol with ⟨hn, rfl⟩ | ⟨_, ht, rfl⟩
  · exact List.mem_eraseDups.mpr hn
  · exact List.mem_eraseDups.mpr ht

@[simp] theorem ruleNames_grammar (d : Declaration) (entries : List Rule) :
    (d.grammar entries).ruleNames = (d.grammar entries).nonterminals := by
  simp [Grammar.ruleNames, grammar, Function.comp_def]

theorem hasSymbol_grammar {entries : List Rule}
    (hentries : List.Forall₂ (fun e r => d.rule e = .ok r) d.rules entries) {r : Rule}
    (hr : r ∈ (d.grammar entries).rules) {alternative : Alternative}
    (ha : alternative ∈ r.alternatives) {s : Symbol} (hs : s ∈ alternative) :
    (d.grammar entries).HasSymbol s := by
  obtain ⟨a, _, rfl⟩ := List.mem_map.mp hr
  obtain ⟨entry, hentry, _, hmem⟩ := mem_collect.mp ha
  obtain ⟨e, _, he⟩ := Forall₂.exists_left hentries hentry
  exact hasSymbol_of_rule he hmem hs

theorem nodup_alternatives_grammar {entries : List Rule} {r : Rule}
    (hr : r ∈ (d.grammar entries).rules) : r.alternatives.Nodup := by
  obtain ⟨a, _, rfl⟩ := List.mem_map.mp hr
  exact nodup_eraseDups _

theorem wellFormed {g : Grammar} (h : d.toGrammar = .ok g) : g.WellFormed := by
  obtain ⟨hfault, entries, hentries, rfl⟩ := toGrammar_eq_ok_iff.mp h
  obtain ⟨hbare, hquotable, hkinds, hstart⟩ := nameFault?_eq_none_iff.mp hfault
  constructor
  case ruleNames_eq => exact d.ruleNames_grammar entries
  case nodup_nonterminals => exact nodup_eraseDups _
  case nodup_terminals => exact nodup_eraseDups _
  case start_mem => exact List.mem_eraseDups.mpr hstart
  case not_mem_terminals => simpa [grammar, List.mem_eraseDups] using hkinds
  case bare_nonterminal => simpa [grammar, List.mem_eraseDups] using hbare
  case quotable_terminal => simpa [grammar, List.mem_eraseDups] using hquotable
  case hasSymbol => exact fun r hr alternative ha s hs => hasSymbol_grammar hentries hr ha hs
  case nodup_alternatives => exact fun r hr => nodup_alternatives_grammar hr

end Declaration

end ContextFree

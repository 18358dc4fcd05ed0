import ContextFree.Proofs.RoundTrip

/-!
Whether the check of declared names is what reading back needs. For nonterminals it is. For
terminals it is, as far as they are used, but for the line feed, which the check lets through.
-/

namespace ContextFree

namespace Grammar

variable {g k : Grammar}

/-- What is written is read as a grammar with the same start symbol and the same rules. -/
def ReadsBack (g : Grammar) (path : String) : Prop :=
  ∃ k, ofText path none g.text = .ok k ∧ k.start = g.start ∧
    ∀ a, k.alternatives? a = g.alternatives? a

theorem mem_ruleNames_of_alternatives? {a : Name} (h : k.alternatives? a = g.alternatives? a)
    (ha : a ∈ g.ruleNames) : a ∈ k.ruleNames := by
  by_contra hnot
  rw [alternatives?_eq_none_iff.mpr hnot] at h
  exact alternatives?_eq_none_iff.mp h.symm ha

theorem Uses.of_alternatives? (hg : g.ruleNames.Nodup)
    (h : ∀ a, k.alternatives? a = g.alternatives? a) {a : Name} (ha : g.Uses a) : k.Uses a := by
  obtain ⟨r, hr, alternative, hmem, hs⟩ := ha
  have hk : alternative ∈ k.alternatives r.name := by
    rw [alternatives, h, alternatives?_name hg hr]
    exact hmem
  obtain ⟨r', hr', _, hmem'⟩ := exists_rule hk
  exact ⟨r', hr', alternative, hmem', hs⟩

/-- Whatever is read back has names that pass the check, since reading checks them again. -/
theorem ReadsBack.names (hg : g.ruleNames.Nodup) {path : String} (h : g.ReadsBack path) :
    (∀ a ∈ g.ruleNames, isBareName a = true) ∧
      ∀ a, g.Uses a → isQuotableName a = true ∧ '\n' ∉ a.toList := by
  obtain ⟨k, hk, _, halternatives⟩ := h
  have hread : k.Read := .inl ⟨path, none, _, hk⟩
  have hwell : k.WellFormed := (Built.ofText hk).wellFormed
  constructor
  · intro a ha
    have hmem : a ∈ k.nonterminals :=
      hwell.ruleNames_eq ▸ mem_ruleNames_of_alternatives? (halternatives a) ha
    exact hwell.bare_nonterminal a hmem
  · intro a ha
    have huses : k.Uses a := ha.of_alternatives? hg halternatives
    exact ⟨hwell.quotable_terminal a (huses.mem_terminals hwell), hread.uses.2 a huses⟩

end Grammar

namespace Declaration

open Grammar

variable {d : Declaration} {entries : List Rule}

/-- The declared grammar without the terminals that cannot be written. -/
def quotable (d : Declaration) (entries : List Rule) : Grammar :=
  { d.grammar entries with terminals := (d.grammar entries).terminals.filter isQuotableName }

/-- Terminals that cannot be written do no harm while they are not used. -/
theorem wellFormed_quotable
    (hentries : List.Forall₂ (fun e r => d.rule e = .ok r) d.rules entries)
    (hkinds : ∀ a ∈ d.nonterminals, a ∉ d.terminals) (hstart : d.start ∈ d.nonterminals)
    (hbare : ∀ a ∈ d.nonterminals, isBareName a = true)
    (hquotable : ∀ a, (d.grammar entries).Uses a → isQuotableName a = true) :
    (d.quotable entries).WellFormed := by
  constructor
  case ruleNames_eq => exact d.ruleNames_grammar entries
  case nodup_nonterminals => exact nodup_eraseDups _
  case nodup_terminals => exact (nodup_eraseDups _).filter _
  case start_mem => exact List.mem_eraseDups.mpr hstart
  case not_mem_terminals =>
    intro a ha ht
    have ht := (List.mem_filter.mp ht).1
    exact hkinds a (List.mem_eraseDups.mp ha) (List.mem_eraseDups.mp ht)
  case bare_nonterminal => exact fun a ha => hbare a (List.mem_eraseDups.mp ha)
  case quotable_terminal => exact fun a ha => (List.mem_filter.mp ha).2
  case nodup_alternatives => exact fun r hr => nodup_alternatives_grammar hr
  case hasSymbol =>
    intro r hr alternative ha s hs
    have hsymbol := hasSymbol_grammar hentries hr ha hs
    cases s with
    | terminal a =>
      exact List.mem_filter.mpr ⟨hsymbol, hquotable a ⟨r, hr, alternative, ha, hs⟩⟩
    | nonterminal a => exact hsymbol

/-- Where the names pass, the grammar is read back without the terminals that are not used. -/
theorem readsBack_of_names
    (hentries : List.Forall₂ (fun e r => d.rule e = .ok r) d.rules entries)
    (hkinds : ∀ a ∈ d.nonterminals, a ∉ d.terminals) (hstart : d.start ∈ d.nonterminals)
    (hbare : ∀ a ∈ d.nonterminals, isBareName a = true)
    (huses : ∀ a, (d.grammar entries).Uses a → isQuotableName a = true ∧ '\n' ∉ a.toList)
    (path : String) : (d.grammar entries).ReadsBack path := by
  -- the text shows no terminals but those that are used
  have hwell : (d.quotable entries).WellFormed :=
    wellFormed_quotable hentries hkinds hstart hbare fun a ha => (huses a ha).1
  have hread : ofText path none (d.quotable entries).text = .ok (d.quotable entries).reread :=
    (ofText_text_eq_ok_iff hwell path).mpr ⟨fun a ha => (huses a ha).2, rfl⟩
  exact ⟨_, hread, rfl, reread_alternatives? hwell⟩

/-- If the names are the only fault that a declaration can have, its grammar is read back exactly if
the nonterminals pass the check of names and the terminals that are used pass it and have no line
feed. So a declaration that was accepted is read back unless a terminal with a line feed is used. -/
theorem readsBack_grammar_iff
    (hentries : List.Forall₂ (fun e r => d.rule e = .ok r) d.rules entries)
    (hkinds : ∀ a ∈ d.nonterminals, a ∉ d.terminals) (hstart : d.start ∈ d.nonterminals)
    (path : String) :
    ((d.grammar entries).ReadsBack path ↔
      (∀ a ∈ d.nonterminals, isBareName a = true) ∧
        ∀ a, (d.grammar entries).Uses a → isQuotableName a = true ∧ '\n' ∉ a.toList) ∧
    (d.toGrammar = .ok (d.grammar entries) →
      ((d.grammar entries).ReadsBack path ↔
        ∀ a, (d.grammar entries).Uses a → '\n' ∉ a.toList)) := by
  have hnames : (d.grammar entries).ReadsBack path →
      (∀ a ∈ d.nonterminals, isBareName a = true) ∧
        ∀ a, (d.grammar entries).Uses a → isQuotableName a = true ∧ '\n' ∉ a.toList := by
    intro h
    obtain ⟨hbare, huses⟩ := h.names (d.ruleNames_grammar entries ▸ nodup_eraseDups _)
    refine ⟨fun a ha => hbare a ?_, huses⟩
    exact d.ruleNames_grammar entries ▸ List.mem_eraseDups.mpr ha
  refine ⟨⟨hnames, fun h => ?_⟩, fun haccepted => ⟨fun h a ha => ((hnames h).2 a ha).2, ?_⟩⟩
  · exact readsBack_of_names hentries hkinds hstart h.1 h.2 path
  · intro hfeed
    have hwell : (d.grammar entries).WellFormed := wellFormed haccepted
    apply readsBack_of_names hentries hkinds hstart
    · exact fun a ha => hwell.bare_nonterminal a (List.mem_eraseDups.mpr ha)
    · exact fun a ha => ⟨hwell.quotable_terminal a (ha.mem_terminals hwell), hfeed a ha⟩

end Declaration

namespace Grammar

theorem readsBack_awkward :
    awkwardDeclaration.toGrammar = .ok awkward ∧ awkward.ReadsBack "awkward" := by
  have hentries : List.Forall₂ (fun e r => awkwardDeclaration.rule e = .ok r)
      awkwardDeclaration.rules awkward.rules := .cons rfl (.cons rfl .nil)
  have haccepted : awkwardDeclaration.toGrammar = .ok awkward := rfl
  have hwell : awkward.WellFormed := Declaration.wellFormed haccepted
  have hfeed : ∀ a ∈ awkward.terminals, '\n' ∉ a.toList := by decide
  have hiff := Declaration.readsBack_grammar_iff hentries (by decide) (by decide) "awkward"
  exact ⟨haccepted, (hiff.2 haccepted).mpr fun a ha => hfeed a (ha.mem_terminals hwell)⟩

/-- The terminal is written over two lines. -/
def broken : Grammar := ⟨["S"], ["a\nb"], [⟨"S", [[.terminal "a\nb"]]⟩], "S"⟩

def brokenDeclaration : Declaration := ⟨["S"], ["a\nb"], [("S", [["a\nb"]])], "S"⟩

theorem broken_missed :
    brokenDeclaration.toGrammar = .ok broken ∧
      ∀ path k, ofText path none broken.text ≠ .ok k := by
  have haccepted : brokenDeclaration.toGrammar = .ok broken := rfl
  have hwell : broken.WellFormed := Declaration.wellFormed haccepted
  have huses : broken.Uses "a\nb" :=
    ⟨_, List.mem_singleton_self _, _, List.mem_singleton_self _, List.mem_singleton_self _⟩
  refine ⟨haccepted, fun path k h => ?_⟩
  exact ((ofText_text_eq_ok_iff hwell path).mp h).1 "a\nb" huses (by decide)

end Grammar

end ContextFree

import ContextFree.Proofs.Layout
import ContextFree.Proofs.Order

/-!
The order of the lines of a text. Once the start symbol is given, it does not matter for whether a
grammar is read, nor for which one, as far as grammars differ in more than order.
-/

namespace ContextFree

/-- The second text has the lines of the first one in some order. A carriage return in front of a
line feed may count as part of the line or as part of its end. -/
def Reordered (text text' : String) : Prop :=
  (Line.ofText text').Perm (Line.ofText text) ∨
    (text'.toList.splitOn '\n').Perm (text.toList.splitOn '\n')

theorem Line.ruleTokens_perm {lines lines' : List (List Char)} (h : lines'.Perm lines) :
    (ruleTokens lines').Perm (ruleTokens lines) :=
  (h.filter isRule).map Token.scan

theorem Reordered.ruleTokens_perm {text text' : String} (h : Reordered text text') :
    (Line.ruleTokens (Line.ofText text')).Perm (Line.ruleTokens (Line.ofText text)) := by
  rcases h with h | h
  · exact Line.ruleTokens_perm h
  · rw [Line.ruleTokens_ofText, Line.ruleTokens_ofText]
    exact Line.ruleTokens_perm h

theorem Reordered.symm {text text' : String} (h : Reordered text text') : Reordered text' text :=
  h.imp List.Perm.symm List.Perm.symm

/-- Lines whose tokens stand in another order write the same rules in another order. -/
theorem Transcript.exists_perm {lines lines' : List (List Char)} {rules : List WrittenRule}
    (h : Transcript lines rules)
    (hperm : (Line.ruleTokens lines').Perm (Line.ruleTokens lines)) :
    ∃ rules', Transcript lines' rules' ∧ rules'.Perm rules := by
  rw [transcript_iff_ruleTokens.mp h] at hperm
  obtain ⟨rules', htokens, hrules⟩ := (congrFun₂ (List.eq_map_comp_perm _) _ _).mpr hperm
  exact ⟨rules', transcript_iff_ruleTokens.mpr htokens, hrules⟩

namespace WrittenRule

variable {rules rules' : List WrittenRule} {start : Name}

theorem mem_names_iff (h : rules'.Perm rules) {a : Name} : a ∈ names rules' ↔ a ∈ names rules :=
  (h.map _).mem_iff

/-- Rules that fit together do so in any order. -/
theorem Coherent.perm (h : rules'.Perm rules) (hcoherent : Coherent (some start) rules) :
    Coherent (some start) rules' := by
  constructor
  case ne_nil =>
    rintro rfl
    exact hcoherent.ne_nil h.nil_eq.symm
  case defined =>
    exact fun r hr a ha => (mem_names_iff h).mpr (hcoherent.defined r (h.mem_iff.mp hr) a ha)
  case distinct =>
    exact fun r hr a ha hmem =>
      hcoherent.distinct r (h.mem_iff.mp hr) a ha ((mem_names_iff h).mp hmem)
  case start_mem => exact fun a ha => (mem_names_iff h).mpr (hcoherent.start_mem a ha)

theorem alternatives_grammar (rules : List WrittenRule) (start a : Name) :
    (grammar rules start).alternatives a =
      ((rules.filter (·.name == a)).flatMap (·.alternatives)).eraseDups := by
  rw [Grammar.alternatives, Grammar.alternatives?_of_rules rfl]
  split_ifs with ha
  · rfl
  · have hnone : rules.filter (·.name == a) = [] := by
      rw [List.filter_eq_nil_iff]
      intro r hr heq
      exact ha (List.mem_eraseDups.mpr (beq_iff_eq.mp heq ▸ List.mem_map_of_mem hr))
    rw [hnone]
    rfl

theorem grammar_equiv (h : rules'.Perm rules) (start : Name) :
    (grammar rules start).Equiv (grammar rules' start) := by
  have hnames : SameMembers (names rules).eraseDups (names rules').eraseDups :=
    (SameMembers.of_perm (h.symm.map _)).eraseDups
  have hruleNames (rules : List WrittenRule) :
      (grammar rules start).ruleNames = (names rules).eraseDups := by
    simp [Grammar.ruleNames, grammar, Function.comp_def]
  refine ⟨rfl, ?_, hnames, by rwa [hruleNames, hruleNames], fun a _ => ?_⟩
  · exact (SameMembers.of_perm ((h.symm.flatMap_right _).filterMap _)).eraseDups
  · rw [alternatives_grammar, alternatives_grammar]
    exact (SameMembers.of_perm ((h.symm.filter _).flatMap_right _)).eraseDups

end WrittenRule

namespace Grammar

variable {path : String} {start : Name} {text text' : String}

theorem ofText_some_eq_ok_iff {g : Grammar} :
    ofText path (some start) text = .ok g ↔
      ∃ rules, Transcript (Line.ofText text) rules ∧ WrittenRule.Coherent (some start) rules ∧
        g = WrittenRule.grammar rules start := by
  simp [ofText_eq_ok_iff]

/-- A reordered text is read as a grammar that differs in order only. -/
theorem exists_equiv_of_reordered {g : Grammar} (h : Reordered text text')
    (hread : ofText path (some start) text = .ok g) :
    ∃ g', ofText path (some start) text' = .ok g' ∧ g.Equiv g' := by
  obtain ⟨rules, hlines, hcoherent, rfl⟩ := ofText_some_eq_ok_iff.mp hread
  obtain ⟨rules', hlines', hperm⟩ := hlines.exists_perm h.ruleTokens_perm
  exact ⟨_, ofText_some_eq_ok_iff.mpr ⟨rules', hlines', hcoherent.perm hperm, rfl⟩,
    WrittenRule.grammar_equiv hperm start⟩

/-- With a given start symbol, the order of the lines matters neither for whether a text is read nor
for the grammar, but for the order in this. -/
theorem ofText_ignores_order (path : String) (start : Name) (h : Reordered text text') :
    ((∃ g, ofText path (some start) text' = .ok g) ↔ ∃ g, ofText path (some start) text = .ok g) ∧
    ∀ g g', ofText path (some start) text = .ok g → ofText path (some start) text' = .ok g' →
      g.Equiv g' := by
  constructor
  · constructor
    · rintro ⟨g', hread⟩
      obtain ⟨g, hg, _⟩ := exists_equiv_of_reordered h.symm hread
      exact ⟨g, hg⟩
    · rintro ⟨g, hread⟩
      obtain ⟨g', hg', _⟩ := exists_equiv_of_reordered h hread
      exact ⟨g', hg'⟩
  · intro g g' hread hread'
    obtain ⟨k, hk, hequiv⟩ := exists_equiv_of_reordered h hread
    obtain rfl := Except.ok.inj (hk.symm.trans hread')
    exact hequiv

/-- The rules of `S` stand in two lines. -/
def tidy : String := "S = A | \"x\" B\nS = \"y\"\nA = \"x\" B | \"x\"\n; end\r\nB = A A"

/-- The same lines, with uses in front of what they use and the start symbol in the middle. -/
def shuffled : String := "B = A A\nA = \"x\" B | \"x\"\nS = \"y\"\n; end\nS = A | \"x\" B\n"

def tidyGrammar : Grammar where
  nonterminals := ["S", "A", "B"]
  terminals := ["x", "y"]
  rules := [
    ⟨"S", [[.nonterminal "A"], [.terminal "x", .nonterminal "B"], [.terminal "y"]]⟩,
    ⟨"A", [[.terminal "x", .nonterminal "B"], [.terminal "x"]]⟩,
    ⟨"B", [[.nonterminal "A", .nonterminal "A"]]⟩]
  start := "S"

theorem ofText_ignores_order_shuffled :
    Reordered tidy shuffled ∧ ofText "g.bnf" (some "S") tidy = .ok tidyGrammar ∧
      ∃ g, ofText "g.bnf" (some "S") shuffled = .ok g ∧ tidyGrammar.Equiv g := by
  have hlines : Line.ofText tidy =
      ["S = A | \"x\" B".toList, "S = \"y\"".toList, "A = \"x\" B | \"x\"".toList, "; end".toList,
        "B = A A".toList] := by cbv
  have hlines' : Line.ofText shuffled =
      ["B = A A".toList, "A = \"x\" B | \"x\"".toList, "S = \"y\"".toList, "; end".toList,
        "S = A | \"x\" B".toList] := by cbv
  have horder : Reordered tidy shuffled := by
    refine .inl ?_
    rw [hlines, hlines']
    decide
  have hread : ofText "g.bnf" (some "S") tidy = .ok tidyGrammar := by cbv
  obtain ⟨hiff, hequiv⟩ := ofText_ignores_order "g.bnf" "S" horder
  obtain ⟨g, hg⟩ := hiff.mpr ⟨_, hread⟩
  exact ⟨horder, hread, g, hg, hequiv _ _ hread hg⟩

end Grammar

end ContextFree

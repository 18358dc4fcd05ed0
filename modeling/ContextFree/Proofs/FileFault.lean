import ContextFree.Proofs.LineFault

/-!
The errors of a file whose lines all write rules. Names without a rule are reported where they
stand, names of two kinds and a wrong start symbol for the file as a whole, and all other ways in
which a grammar can be wrong are ruled out by the reading of the lines.
-/

namespace ContextFree

namespace NumberedRule

section

variable (path : String) (start : Option Name) (rules : List NumberedRule)

/-- The names on the left sides, in order. -/
def leftSides : List Name := rules.map (·.name)

/-- Every bare word of an alternative is on some left side. -/
def AllDefined : Prop := ∀ r ∈ rules, ∀ a, .word a ∈ r.tokens → a ∈ leftSides rules

/-- One error for each bare word of an alternative that is on no left side, in the order of the
text and with the number of its line. -/
def undefinedWords : List (Located ReadError) :=
  rules.flatMap fun r =>
    ((r.tokens.filterMap Token.word?).filter (· ∉ leftSides rules)).map fun a =>
      ⟨⟨path, some r.number⟩, .undefinedName a⟩

/-- The name stands between quotes. -/
def IsQuoted (a : Name) : Prop := ∃ r ∈ rules, .quoted a ∈ r.tokens

/-- The first name on a left side that stands between quotes as well. -/
def FirstOfBothKinds (a : Name) : Prop :=
  ∃ before behind, leftSides rules = before ++ a :: behind ∧ IsQuoted rules a ∧
    ∀ b ∈ before, ¬ IsQuoted rules b

/-- What is wrong with rules that can all be read, by the first fault that they have. -/
structure Verdict (answer : Except (List (Located ReadError)) Grammar) : Prop where
  noRules : answer = .error [⟨.whole path, .noRules⟩] ↔ rules = []
  undefined : rules ≠ [] →
    (answer = .error (undefinedWords path rules) ↔ ¬ AllDefined rules)
  ofBothKinds : rules ≠ [] → AllDefined rules → ∀ a,
    (answer = .error [⟨.whole path, .incoherent (.ofBothKinds a)⟩] ↔ FirstOfBothKinds rules a)
  undeclaredStart : rules ≠ [] → AllDefined rules → (∀ a, ¬ FirstOfBothKinds rules a) → ∀ a,
    (answer = .error [⟨.whole path, .incoherent (.undeclaredStart a)⟩] ↔
      start = some a ∧ a ∉ leftSides rules)

end

instance (rules : List NumberedRule) (a : Name) : Decidable (IsQuoted rules a) :=
  inferInstanceAs (Decidable (∃ r ∈ rules, _))

variable {path : String} {start : Option Name} {rules : List NumberedRule}

theorem names_toWrittenRule :
    WrittenRule.names (rules.map (·.toWrittenRule)) = leftSides rules := by
  rw [WrittenRule.names, List.map_map]
  rfl

theorem firstOfBothKinds_iff {a : Name} :
    FirstOfBothKinds rules a ↔ (leftSides rules).find? (IsQuoted rules ·) = some a := by
  rw [find?_eq_some_iff_firstWith]
  simp only [decide_eq_true_eq]
  rfl

/-- The names that reading finds undefined are the bare words on no left side. -/
theorem undefined_ruleLine :
    RuleLine.undefined path (rules.map ruleLine) = undefinedWords path rules := by
  have hnames : (rules.map ruleLine).map (·.name) = leftSides rules := by
    rw [List.map_map]
    rfl
  rw [RuleLine.undefined, hnames, List.flatMap_map, undefinedWords]
  congr 1
  funext r
  have hwords : nonterminalsIn (ruleLine r).alternatives = r.tokens.filterMap Token.word? :=
    r.rightSide.nonterminalsIn_eq
  have htest (a : Name) : (!(leftSides rules).contains a) = decide (a ∉ leftSides rules) := by simp
  simp only [hwords, htest]
  rfl

theorem undefinedWords_eq_nil_iff : undefinedWords path rules = [] ↔ AllDefined rules := by
  simp [undefinedWords, AllDefined, Token.word?_eq_some_iff]

/-- Written names can be written and declared, so the first fault that declared names can have is
that one is of two kinds, and the second that the start symbol is none of them. -/
theorem nameFault?_ruleLine {lines : List (List Char)} {a : Name}
    (hlines : Transcript lines (rules.map (·.toWrittenRule))) :
    (RuleLine.declaration (rules.map ruleLine) a).nameFault? =
      (((leftSides rules).find? (IsQuoted rules ·)).map .ofBothKinds).or
        (if a ∈ leftSides rules then none else some (.undeclaredStart a)) := by
  have hnames : (RuleLine.declaration (rules.map ruleLine) a).nonterminals = leftSides rules :=
    (RuleLine.names_eq toRule_ruleLine).trans names_toWrittenRule
  have hterminals : (RuleLine.declaration (rules.map ruleLine) a).terminals =
      ((rules.map (·.toWrittenRule)).flatMap (·.tokens)).filterMap Token.terminal? :=
    RuleLine.terminals_declaration toRule_ruleLine
  have hbare : (leftSides rules).find? (!isBareName ·) = none := by
    rw [List.find?_eq_none]
    intro b hb
    simp [hlines.isBareName (names_toWrittenRule ▸ hb)]
  have hquotable : (RuleLine.declaration (rules.map ruleLine) a).terminals.find?
      (!isQuotableName ·) = none := by
    rw [List.find?_eq_none, hterminals]
    intro b hb
    simp [hlines.isQuotableName hb]
  have hquoted : ∀ b ∈ leftSides rules,
      (RuleLine.declaration (rules.map ruleLine) a).terminals.contains b =
        decide (IsQuoted rules b) := by
    intro b hb
    have hne : b ≠ "" := fun he =>
      (isBareName_iff.mp (hlines.isBareName (names_toWrittenRule ▸ hb))).1 (he ▸ rfl)
    rw [hterminals, List.contains_eq_mem, decide_eq_decide, WrittenRule.mem_terminals]
    simp [hne, IsQuoted]
  have hstart : (RuleLine.declaration (rules.map ruleLine) a).start = a := rfl
  have hkinds : (leftSides rules).find?
      ((RuleLine.declaration (rules.map ruleLine) a).terminals.contains ·) =
        (leftSides rules).find? (IsQuoted rules ·) := by
    rw [← List.head?_filter, List.filter_congr hquoted, List.head?_filter]
  rw [Declaration.nameFault?, hnames, hbare, hquotable, hstart, hkinds]
  rfl

end NumberedRule

namespace RuleLine

variable {path : String} {start : Option Name} {rules : List RuleLine}

theorem toGrammar_declaration_eq_error_iff {a : Name} (hdefined : undefined path rules = [])
    {fault : GrammarError} :
    (declaration rules a).toGrammar = .error fault ↔
      (declaration rules a).nameFault? = some fault := by
  cases hfault : (declaration rules a).nameFault? with
  | none =>
    rw [(toGrammar_declaration_eq_ok_iff hdefined).mpr ⟨hfault, rfl⟩]
    simp
  | some fault' => simp [Declaration.toGrammar, hfault]

theorem toGrammar_eq_noRules_iff :
    toGrammar path start rules = .error [⟨.whole path, .noRules⟩] ↔ rules = [] := by
  constructor
  · intro h
    rcases toGrammar_error_cases h with ⟨hnil, _⟩ | ⟨_, _, he⟩ | ⟨_, _, _, _, _, _, he⟩
    · exact hnil
    · obtain ⟨_, _, _, he⟩ := exists_of_mem_undefined (he ▸ List.mem_singleton_self _)
      cases he
    · cases he
  · rintro rfl
    rfl

theorem toGrammar_eq_undefined_iff (hne : rules ≠ []) :
    toGrammar path start rules = .error (undefined path rules) ↔ undefined path rules ≠ [] := by
  constructor
  · intro h hnil
    rcases toGrammar_error_cases h with ⟨he, _⟩ | ⟨_, he, _⟩ | ⟨_, _, _, _, _, _, he⟩
    · exact hne he
    · exact he hnil
    · rw [hnil] at he
      cases he
  · intro hundefined
    obtain ⟨first, rest, rfl⟩ := List.exists_cons_of_ne_nil hne
    rw [toGrammar]
    split
    next hnil => exact absurd hnil hundefined
    next => rfl

theorem toGrammar_eq_incoherent_iff {first : RuleLine} {rest : List RuleLine}
    (hdefined : undefined path (first :: rest) = []) {fault : GrammarError} :
    toGrammar path start (first :: rest) = .error [⟨.whole path, .incoherent fault⟩] ↔
      (declaration (first :: rest) (start.getD first.name)).nameFault? = some fault := by
  rw [toGrammar, hdefined, ← toGrammar_declaration_eq_error_iff hdefined]
  cases (declaration (first :: rest) (start.getD first.name)).toGrammar <;> simp [Except.mapError]

end RuleLine

section

variable {lines : List (List Char)} {rules : List NumberedRule} (path : String)
  (start : Option Name)

/-- The faults of the grammar as a whole that rules without undefined names can have. -/
theorem NumberedTranscript.incoherent_iff (h : NumberedTranscript 1 lines rules)
    (hne : rules ≠ []) (hdefined : NumberedRule.AllDefined rules) {fault : GrammarError} :
    RuleLine.toGrammar path start (rules.map NumberedRule.ruleLine) =
        .error [⟨.whole path, .incoherent fault⟩] ↔
      (((NumberedRule.leftSides rules).find? (NumberedRule.IsQuoted rules ·)).map
          .ofBothKinds).or
        (start.bind fun a =>
          if a ∈ NumberedRule.leftSides rules then none else some (.undeclaredStart a)) =
        some fault := by
  have hundefined : RuleLine.undefined path (rules.map NumberedRule.ruleLine) = [] := by
    rw [NumberedRule.undefined_ruleLine, NumberedRule.undefinedWords_eq_nil_iff]
    exact hdefined
  have hfault (a : Name) := NumberedRule.nameFault?_ruleLine (a := a) h.transcript
  cases rules with
  | nil => exact absurd rfl hne
  | cons first rest =>
    rw [List.map_cons] at hundefined hfault ⊢
    rw [RuleLine.toGrammar_eq_incoherent_iff hundefined, hfault]
    cases start with
    | none =>
      have hfirst : first.name ∈ NumberedRule.leftSides (first :: rest) := List.mem_cons_self
      simp [NumberedRule.ruleLine, hfirst]
    | some a => rfl

/-- The verdict on the rules of lines. -/
theorem NumberedTranscript.verdict (h : NumberedTranscript 1 lines rules) :
    NumberedRule.Verdict path start rules
      (RuleLine.toGrammar path start (rules.map NumberedRule.ruleLine)) := by
  have hundefined : RuleLine.undefined path (rules.map NumberedRule.ruleLine) =
      NumberedRule.undefinedWords path rules := NumberedRule.undefined_ruleLine
  constructor
  case noRules => rw [RuleLine.toGrammar_eq_noRules_iff, List.map_eq_nil_iff]
  case undefined =>
    intro hne
    rw [← hundefined, RuleLine.toGrammar_eq_undefined_iff (by simpa using hne), hundefined, Ne,
      NumberedRule.undefinedWords_eq_nil_iff]
  case ofBothKinds =>
    intro hne hdefined a
    rw [h.incoherent_iff path start hne hdefined, NumberedRule.firstOfBothKinds_iff]
    cases (NumberedRule.leftSides rules).find? (NumberedRule.IsQuoted rules ·) with
    | some b => simp
    | none =>
      cases start with
      | none => simp
      | some b => by_cases hb : b ∈ NumberedRule.leftSides rules <;> simp [hb]
  case undeclaredStart =>
    intro hne hdefined hkinds a
    have hnone : (NumberedRule.leftSides rules).find? (NumberedRule.IsQuoted rules ·) = none := by
      rw [Option.eq_none_iff_forall_ne_some]
      exact fun b hb => hkinds b (NumberedRule.firstOfBothKinds_iff.mpr hb)
    rw [h.incoherent_iff path start hne hdefined, hnone]
    cases start with
    | none => simp
    | some b =>
      rw [Option.map_none, Option.none_or, Option.bind_some]
      split <;> grind

end

/-- Errors that no file has. -/
def ReadError.IsRuledOut : ReadError → Prop
  | unsplit => True
  | blankLine => True
  | incoherent (.unwritable _) => True
  | incoherent (.undeclaredSymbol _) => True
  | incoherent (.undeclaredLeftSide _) => True
  | incoherent .outOfNames => True
  | _ => False

theorem Line.Complaint.not_isRuledOut {path : String} {number : Nat} {line : Option (List Char)}
    {e : Located ReadError} (h : Line.Complaint path number line e) : ¬ e.error.IsRuledOut := by
  cases h with
  | undecodable => exact id
  | fault _ hfault =>
    cases hfault with
    | openQuote => exact id
    | tokens _ hfault => cases hfault <;> exact id

namespace RuleLine

variable {path : String} {lines : List (Option (List Char))} {rules : List RuleLine}

/-- Lines that are read as rules can all be decoded. -/
theorem exists_map_some (h : ofLines path lines = .ok rules) :
    ∃ decoded : List (List Char), lines = decoded.map some := by
  have hsome : ∀ line ∈ lines, (id line).map some = some line := by
    intro line hline
    cases line with
    | some cs => rfl
    | none =>
      obtain ⟨number, hnumber⟩ := exists_mem_zipIdx hline 1
      exact absurd (mem_results_iff.mpr ⟨none, number, hnumber, rfl⟩) ((ofLines_eq_ok_iff.mp h).1 _)
  refine ⟨lines.filterMap id, ?_⟩
  rw [List.map_filterMap, List.filterMap_congr hsome, List.filterMap_some]

/-- Lines that are read as rules write these rules. -/
theorem exists_numbered (h : ofLines path lines = .ok rules) :
    ∃ decoded numbered, NumberedTranscript 1 decoded numbered ∧
      numbered.map NumberedRule.ruleLine = rules := by
  obtain ⟨decoded, rfl⟩ := exists_map_some h
  exact ⟨decoded, ofLines_eq_ok_iff_numbered.mp h⟩

end RuleLine

namespace Grammar

/-- Reading never gives an error that is ruled out. -/
theorem ErrorSource.not_isRuledOut {path : String} {lines : List (Option (List Char))}
    {e : Located ReadError} (h : ErrorSource path lines e) : ¬ e.error.IsRuledOut := by
  cases h with
  | line _ hcomplaint => exact hcomplaint.not_isRuledOut
  | noRules => exact id
  | name => exact id
  | rules hrules hdefined hfault =>
    obtain ⟨_, numbered, hnumbered, rfl⟩ := RuleLine.exists_numbered hrules
    rw [RuleLine.toGrammar_declaration_eq_error_iff hdefined,
      NumberedRule.nameFault?_ruleLine hnumbered.transcript] at hfault
    rcases Option.or_eq_some_iff.mp hfault with hkinds | ⟨_, hstart⟩
    · obtain ⟨a, _, rfl⟩ := Option.map_eq_some_iff.mp hkinds
      exact id
    · split at hstart
      next => cases hstart
      next =>
        obtain rfl := Option.some.inj hstart
        exact id

/-- A text whose rule lines all write rules has the errors of these rules: that there are none, one
for each undefined word, one for the first name of two kinds, or one for the start symbol, whichever
comes first. No text and no file has another error of its grammar, or one of a line that should not
have been taken for a rule. -/
theorem ofText_reports_rules (path : String) (start : Option Name) :
    (∀ text,
      ((∃ rules, NumberedTranscript 1 (Line.ofText text) rules) ↔
        ∀ line ∈ Line.ofText text, Line.IsRuleLine line → ∃ r, Line.Writes line r) ∧
      (∀ rules, NumberedTranscript 1 (Line.ofText text) rules →
        NumberedRule.Verdict path start rules (ofText path start text)) ∧
      ∀ errors, ofText path start text = .error errors → ∀ e ∈ errors, ¬ e.error.IsRuledOut) ∧
    ∀ bytes errors, ofBytes path start bytes = .error errors →
      ∀ e ∈ errors, ¬ e.error.IsRuledOut := by
  refine ⟨fun text => ⟨NumberedTranscript.exists_iff 1, fun rules h => ?_, ?_⟩, ?_⟩
  · rw [ofText, ofLines, h.ofLines_eq path]
    exact h.verdict path start
  · exact fun errors h e he => (errorSource_of_mem h he).not_isRuledOut
  · exact fun bytes errors h e he => (errorSource_of_mem h he).not_isRuledOut

/-- Two words of three are undefined, one of them twice, and a name is of both kinds. -/
def sketch : String := "S = A \"x\" C\n; B\nA = \"S\" B | B"

def sketchRules : List NumberedRule :=
  [⟨⟨⟨"S", [[.nonterminal "A", .terminal "x", .nonterminal "C"]]⟩,
      [.word "A", .quoted "x", .word "C"], Token.rightSide_iff.mpr ⟨by decide, rfl⟩⟩, 1⟩,
    ⟨⟨⟨"A", [[.terminal "S", .nonterminal "B"], [.nonterminal "B"]]⟩,
      [.quoted "S", .word "B", .bar, .word "B"], Token.rightSide_iff.mpr ⟨by decide, rfl⟩⟩, 3⟩]

theorem ofText_reports_rules_sketch :
    NumberedTranscript 1 (Line.ofText sketch) sketchRules ∧
      ¬ NumberedRule.AllDefined sketchRules ∧
      ofText "g.bnf" none sketch = .error [
        ⟨⟨"g.bnf", some 1⟩, .undefinedName "C"⟩, ⟨⟨"g.bnf", some 3⟩, .undefinedName "B"⟩,
        ⟨⟨"g.bnf", some 3⟩, .undefinedName "B"⟩] := by
  have hlines : Line.ofText sketch =
      ["S = A \"x\" C".toList, "; B".toList, "A = \"S\" B | B".toList] := by cbv
  have htranscript : NumberedTranscript 1 (Line.ofText sketch) sketchRules := by
    rw [hlines]
    refine .rule (Line.isRule_iff.mp rfl) ⟨rfl, by cbv⟩ (.skip ?_ ?_)
    · rw [← Line.isRule_iff]
      decide
    · exact .rule (Line.isRule_iff.mp rfl) ⟨rfl, by cbv⟩ .nil
  have hundefined : ¬ NumberedRule.AllDefined sketchRules := by
    intro h
    exact absurd (h _ List.mem_cons_self "C" (by decide)) (by decide)
  have hverdict := ((ofText_reports_rules "g.bnf" none).1 sketch).2.1 sketchRules htranscript
  exact ⟨htranscript, hundefined, (hverdict.undefined (List.cons_ne_nil _ _)).mpr hundefined⟩

end Grammar

end ContextFree

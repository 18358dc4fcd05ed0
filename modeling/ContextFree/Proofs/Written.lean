import ContextFree.Bnf.Written
import ContextFree.Proofs.Reading
import ContextFree.Proofs.Text

/-!
Reading accepts exactly the texts that write a grammar, and answers this grammar.
-/

namespace ContextFree

namespace Line

theorem isRule_iff {line : List Char} : isRule line = true ↔ IsRuleLine line := by
  unfold isRule IsRuleLine
  induction line with
  | nil => simp
  | cons c rest ih =>
    cases hc : isBlank c with
    | true => simpa [hc] using ih
    | false => simp [hc]

end Line

namespace Token

variable {tokens : List Token} {alternative : Alternative} {alternatives : List Alternative}

theorem spell_iff :
    Spell tokens alternative ↔
      .equals ∉ tokens ∧ .bar ∉ tokens ∧ alternative = tokens.filterMap symbol? := by
  constructor
  · intro h
    induction h with
    | nil => simp
    | word _ ih => simpa [symbol?] using ih
    | quoted ha _ ih => simpa [symbol?, ha] using ih
    | epsilon _ ih =>
      rw [List.filterMap_cons_none rfl]
      simpa using ih
    | empty _ ih => simpa [symbol?] using ih
  · rintro ⟨hequals, hbar, rfl⟩
    induction tokens with
    | nil => exact .nil
    | cons t rest ih =>
      rw [List.mem_cons, not_or] at hequals hbar
      have hrest := ih hequals.2 hbar.2
      cases t with
      | equals => exact absurd rfl hequals.1
      | bar => exact absurd rfl hbar.1
      | epsilon => exact .epsilon hrest
      | word a => exact .word hrest
      | quoted a =>
        by_cases ha : a = ""
        · subst ha
          exact .empty hrest
        · have hsymbol : symbol? (.quoted a) = some (.terminal a) := if_neg ha
          rw [List.filterMap_cons_some hsymbol]
          exact .quoted ha hrest

theorem eq_map_of_spell {pieces : List (List Token)}
    (h : List.Forall₂ Spell pieces alternatives) :
    alternatives = pieces.map (·.filterMap symbol?) := by
  induction h with
  | nil => rfl
  | cons hspell _ ih => rw [List.map_cons, ← ih, (spell_iff.mp hspell).2.2]

/-- The alternatives that are read are those that are written. -/
theorem rightSide_iff :
    RightSide tokens alternatives ↔
      .equals ∉ tokens ∧ alternatives = Token.alternatives tokens := by
  unfold Token.alternatives
  constructor
  · intro h
    cases h with
    | nothing => simp
    | @bars pieces _ hne hpieces =>
      have hfree : ∀ piece ∈ pieces, .equals ∉ piece ∧ bar ∉ piece := by
        intro piece hpiece
        obtain ⟨_, _, hspell⟩ := Forall₂.exists_right hpieces hpiece
        exact ⟨(spell_iff.mp hspell).1, (spell_iff.mp hspell).2.1⟩
      constructor
      · intro hm
        rcases mem_of_mem_intercalate hm with heq | ⟨piece, hpiece, hm⟩
        · cases heq
        · exact (hfree piece hpiece).1 hm
      · have hsome : pieces ≠ [] := by
          rintro rfl
          exact hne rfl
        rw [if_neg hne, List.splitOn_intercalate bar (fun piece h => (hfree piece h).2) hsome]
        exact eq_map_of_spell hpieces
  · rintro ⟨hequals, rfl⟩
    by_cases hnil : tokens = []
    · subst hnil
      exact .nothing
    · rw [if_neg hnil]
      have hpieces : List.Forall₂ Spell (tokens.splitOn bar)
          ((tokens.splitOn bar).map (·.filterMap symbol?)) := by
        rw [List.forall₂_map_right_iff, List.forall₂_same]
        intro piece hpiece
        refine spell_iff.mpr ⟨?_, Line.notMem_of_mem_splitOn hpiece, rfl⟩
        exact fun hm => hequals (Line.subset_of_mem_splitOn hpiece hm)
      have hwhole : [bar].intercalate (tokens.splitOn bar) = tokens := List.intercalate_splitOn bar
      have hbars := RightSide.bars (by rwa [hwhole]) hpieces
      rwa [hwhole] at hbars

theorem isWritable_ofWord {a : Name} (hne : a.toList ≠ [])
    (h : ∀ c ∈ a.toList, endsWord c = false) : (ofWord a).IsWritable := by
  unfold ofWord
  split
  next => trivial
  next hepsilon => exact ⟨hne, hepsilon, h⟩

/-- Scanned tokens are such that they could be written. -/
theorem isWritable_of_scan {line : List Char} (h : scan line = some tokens) :
    ∀ t ∈ tokens, t.IsWritable := by
  fun_induction scan line generalizing tokens with
  | case1 =>
    obtain rfl := Option.some.inj h
    simp
  | case2 c cs _ ih => exact ih h
  | case3 cs _ ih =>
    obtain ⟨rest, hrest, rfl⟩ := Option.map_eq_some_iff.mp h
    exact List.forall_mem_cons.mpr ⟨trivial, ih hrest⟩
  | case4 cs _ _ ih =>
    obtain ⟨rest, hrest, rfl⟩ := Option.map_eq_some_iff.mp h
    exact List.forall_mem_cons.mpr ⟨trivial, ih hrest⟩
  | case5 cs hquote _ _ _ ih =>
    obtain ⟨rest, hrest, rfl⟩ := Option.map_eq_some_iff.mp h
    refine List.forall_mem_cons.mpr ⟨?_, ih hrest⟩
    have hbefore := (beforeQuote_append_behindQuote (by simpa using hquote)).2
    show '"' ∉ (String.ofList (beforeQuote cs)).toList
    rwa [String.toList_ofList]
  | case6 => cases h
  | case7 c cs hblank hequals hbar hquote ih =>
    obtain ⟨rest, hrest, rfl⟩ := Option.map_eq_some_iff.mp h
    refine List.forall_mem_cons.mpr ⟨isWritable_ofWord ?_ ?_, ih hrest⟩
    · rw [String.toList_ofList]
      exact List.cons_ne_nil _ _
    · rw [String.toList_ofList, List.forall_mem_cons]
      constructor
      · simp [endsWord, hblank, hequals, hbar, hquote]
      · intro d hd
        have hword := List.all_eq_true.mp List.all_takeWhile d hd
        simpa [isWordChar] using hword

/-- The first word of a rule does not begin a comment. -/
theorem head?_ne_of_scan {line : List Char} {a : Name} {rest : List Token}
    (hrule : Line.isRule line = true) (h : scan line = some (.word a :: rest)) :
    a.toList.head? ≠ some ';' := by
  fun_induction scan line with
  | case1 => cases h
  | case2 c cs hblank ih =>
    have hrest : Line.isRule cs = true := by simpa [Line.isRule, hblank] using hrule
    exact ih hrest h
  | case3 => simp at h
  | case4 => simp at h
  | case5 => simp at h
  | case6 => cases h
  | case7 c cs hblank _ _ _ ih =>
    have hc : c ≠ ';' := by simpa [Line.isRule, hblank] using hrule
    obtain ⟨_, _, htokens⟩ := Option.map_eq_some_iff.mp h
    have hword := (List.cons.inj htokens).1
    unfold ofWord at hword
    split at hword
    next => cases hword
    next =>
      rw [← word.inj hword, String.toList_ofList]
      simpa using hc

theorem isBareName_of_scan {line : List Char} {a : Name} {rest : List Token}
    (hrule : Line.isRule line = true) (h : scan line = some (.word a :: rest)) :
    isBareName a = true := by
  obtain ⟨hne, hepsilon, hword⟩ := isWritable_of_scan h _ List.mem_cons_self
  refine isBareName_iff.mpr ⟨hne, ?_, head?_ne_of_scan hrule h, hword⟩
  exact fun heq => hepsilon (String.toList_inj.mp heq)

/-- Bars stand for no symbol. -/
theorem filterMap_intercalate (pieces : List (List Token)) :
    ([bar].intercalate pieces).filterMap symbol? =
      (pieces.map (·.filterMap symbol?)).flatten := by
  induction pieces with
  | nil => rfl
  | cons piece rest ih =>
    cases rest with
    | nil => simp
    | cons next rest =>
      have hbar : [bar].filterMap symbol? = [] := rfl
      rw [List.intercalate_cons_cons, List.filterMap_append, List.filterMap_append, hbar,
        List.append_nil, ih]
      rfl

theorem RightSide.flatten_eq (h : RightSide tokens alternatives) :
    alternatives.flatten = tokens.filterMap symbol? := by
  cases h with
  | nothing => rfl
  | bars _ hpieces => rw [filterMap_intercalate, eq_map_of_spell hpieces]

theorem RightSide.nonterminalsIn_eq (h : RightSide tokens alternatives) :
    nonterminalsIn alternatives = tokens.filterMap word? := by
  rw [nonterminalsIn, h.flatten_eq, List.filterMap_filterMap]
  apply List.filterMap_congr
  intro t _
  cases t with
  | quoted a => by_cases ha : a = "" <;> simp [symbol?, word?, ha, Symbol.nonterminal?]
  | _ => rfl

theorem RightSide.mem_nonterminalsIn_iff (h : RightSide tokens alternatives) {a : Name} :
    a ∈ nonterminalsIn alternatives ↔ .word a ∈ tokens := by
  rw [h.nonterminalsIn_eq, List.mem_filterMap]
  simp only [word?_eq_some_iff, exists_eq_right]

theorem RightSide.terminalsIn_eq (h : RightSide tokens alternatives) :
    terminalsIn alternatives = tokens.filterMap terminal? := by
  rw [terminalsIn, h.flatten_eq, List.filterMap_filterMap]
  apply List.filterMap_congr
  intro t _
  cases t with
  | quoted a => by_cases ha : a = "" <;> simp [symbol?, terminal?, ha, Symbol.terminal?]
  | _ => rfl

end Token

theorem WrittenRule.mem_terminals {rules : List WrittenRule} {a : Name} :
    a ∈ (rules.flatMap (·.tokens)).filterMap Token.terminal? ↔
      a ≠ "" ∧ ∃ r ∈ rules, .quoted a ∈ r.tokens := by
  simp only [List.mem_filterMap, List.mem_flatMap, Token.terminal?_eq_some_iff]
  constructor
  · rintro ⟨_, ⟨r, hr, hmem⟩, hne, rfl⟩
    exact ⟨hne, r, hr, hmem⟩
  · rintro ⟨hne, r, hr, hmem⟩
    exact ⟨_, ⟨r, hr, hmem⟩, hne, rfl⟩

/-- Coherent rules have a start symbol. -/
theorem WrittenRule.Coherent.exists_start {start : Option Name} {rules : List WrittenRule}
    (h : Coherent start rules) : ∃ a, start.or (names rules).head? = some a := by
  cases start with
  | some a => exact ⟨a, rfl⟩
  | none =>
    obtain ⟨r, rest, rfl⟩ := List.exists_cons_of_ne_nil h.ne_nil
    exact ⟨r.name, rfl⟩

namespace Transcript

variable {lines : List (List Char)} {rules : List WrittenRule}

theorem exists_line (h : Transcript lines rules) {r : WrittenRule} (hr : r ∈ rules) :
    ∃ line, Line.IsRuleLine line ∧ Line.Writes line r := by
  induction h with
  | nil => cases hr
  | skip _ _ ih => exact ih hr
  | rule hrule hwrites _ ih =>
    rcases List.mem_cons.mp hr with rfl | hr
    · exact ⟨_, hrule, hwrites⟩
    · exact ih hr

/-- Whatever stands on the left side of a rule can be written as a bare word. -/
theorem isBareName (h : Transcript lines rules) {a : Name} (ha : a ∈ WrittenRule.names rules) :
    isBareName a = true := by
  obtain ⟨r, hr, rfl⟩ := List.mem_map.mp ha
  obtain ⟨line, hrule, _, hscan⟩ := h.exists_line hr
  exact Token.isBareName_of_scan (Line.isRule_iff.mpr hrule) hscan

theorem isQuotableName (h : Transcript lines rules) {a : Name}
    (ha : a ∈ (rules.flatMap (·.tokens)).filterMap Token.terminal?) : isQuotableName a = true := by
  obtain ⟨hne, r, hr, hquoted⟩ := WrittenRule.mem_terminals.mp ha
  obtain ⟨line, _, _, hscan⟩ := h.exists_line hr
  have hmem : .quoted a ∈ .word r.name :: .equals :: r.tokens :=
    List.mem_cons_of_mem _ (List.mem_cons_of_mem _ hquoted)
  exact isQuotableName_iff.mpr ⟨hne, Token.isWritable_of_scan hscan _ hmem⟩

end Transcript

namespace RuleLine

theorem parse_eq_ok_iff {tokens : List Token} {a : Name} {alternatives : List Alternative} :
    parse tokens = .ok (a, alternatives) ↔
      ∃ rest, tokens = .word a :: .equals :: rest ∧ Token.RightSide rest alternatives := by
  simp only [Token.rightSide_iff]
  constructor
  · intro h
    unfold parse at h
    split at h
    next b rest =>
      rw [readAlternatives_eq] at h
      split at h
      next => cases h
      next hequals =>
        obtain ⟨rfl, rfl⟩ := Prod.mk.inj (Except.ok.inj h)
        exact ⟨rest, rfl, hequals, rfl⟩
    next => cases h
    next => cases h
    next => cases h
  · intro h'
    obtain ⟨rest, rfl, hequals, rfl⟩ := h'
    rw [parse_word_equals, if_neg hequals]

/-- What is read from a line is what the line writes. -/
theorem read_eq_ok_iff {line : List Char} {r : Rule} :
    read line = .ok (r.name, r.alternatives) ↔
      ∃ written : WrittenRule, Line.Writes line written ∧ written.toRule = r := by
  unfold read Line.Writes
  constructor
  · intro h
    split at h
    next => cases h
    next tokens hscan =>
      obtain ⟨rest, rfl, hright⟩ := parse_eq_ok_iff.mp h
      have hquotes : ¬ line.count '"' % 2 = 1 := by
        rw [← Token.scan_eq_none_iff, hscan]
        exact nofun
      exact ⟨⟨r, rest, hright⟩, ⟨by omega, hscan⟩, rfl⟩
  · intro h'
    obtain ⟨written, ⟨_, hscan⟩, rfl⟩ := h'
    rw [hscan]
    exact parse_eq_ok_iff.mpr ⟨written.tokens, rfl, written.rightSide⟩

/-- A line gives an error unless it writes a rule. -/
theorem read_cases (line : List Char) :
    (∃ e, read line = .error e) ∨ ∃ r, Line.Writes line r := by
  cases hread : read line with
  | error e => exact .inl ⟨e, rfl⟩
  | ok parsed =>
    obtain ⟨r, hwrites, _⟩ := (read_eq_ok_iff (r := ⟨parsed.1, parsed.2⟩)).mp hread
    exact .inr ⟨r, hwrites⟩

variable {path : String} {lines : List (List Char)} {rules : List WrittenRule}

theorem results_of_not_isRule {first : Nat} {line : List Char} (h : ¬ Line.IsRuleLine line) :
    results path first ((line :: lines).map some) = results path (first + 1) (lines.map some) := by
  rw [← Line.isRule_iff] at h
  simp [results, ofLine, h]

theorem ofLine_of_writes {first : Nat} {line : List Char} {r : WrittenRule}
    (hrule : Line.IsRuleLine line) (h : Line.Writes line r) :
    ofLine path first (some line) = some (.ok ⟨r.toRule, first⟩) :=
  ofLine_eq_ok_iff.mpr
    ⟨line, rfl, Line.isRule_iff.mpr hrule, read_eq_ok_iff.mpr ⟨r, h, rfl⟩, rfl⟩

/-- Reading goes through if every line that is meant as a rule gives one. -/
theorem ofLines_eq_ok_iff_results {lines : List (Option (List Char))} {numbered : List RuleLine} :
    ofLines path lines = .ok numbered ↔ results path 1 lines = numbered.map .ok := by
  rw [ofLines_eq_ok_iff]
  generalize results path 1 lines = found
  induction found generalizing numbered with
  | nil => simp [eq_comm]
  | cons result rest ih =>
    cases result with
    | error e =>
      constructor
      · exact fun h => absurd List.mem_cons_self (h.1 e)
      · intro h
        cases numbered <;> cases h
    | ok r => cases numbered <;> simp [← ih, Except.toOption, and_left_comm, eq_comm]

end RuleLine

namespace NumberedRule

/-- What is left of a rule once its line was read. -/
def ruleLine (r : NumberedRule) : RuleLine := ⟨r.toRule, r.number⟩

variable {rules : List NumberedRule}

theorem toRule_ruleLine :
    (rules.map ruleLine).map (·.toRule) = (rules.map (·.toWrittenRule)).map (·.toRule) := by
  rw [List.map_map, List.map_map]
  rfl

end NumberedRule

namespace NumberedTranscript

variable {number : Nat} {lines : List (List Char)} {rules : List NumberedRule}

theorem transcript (h : NumberedTranscript number lines rules) :
    Transcript lines (rules.map (·.toWrittenRule)) := by
  induction h with
  | nil => exact .nil
  | skip hskip _ ih => exact .skip hskip ih
  | rule hrule hwrites _ ih => exact .rule hrule hwrites ih

theorem results_eq (h : NumberedTranscript number lines rules) (path : String) :
    RuleLine.results path number (lines.map some) = (rules.map NumberedRule.ruleLine).map .ok := by
  induction h with
  | nil => rfl
  | skip hskip _ ih => rw [RuleLine.results_of_not_isRule hskip, ih]
  | rule hrule hwrites _ ih =>
    rw [List.map_cons, RuleLine.results_cons (RuleLine.ofLine_of_writes hrule hwrites), ih]
    rfl

theorem ofLines_eq (h : NumberedTranscript 1 lines rules) (path : String) :
    RuleLine.ofLines path (lines.map some) = .ok (rules.map NumberedRule.ruleLine) :=
  RuleLine.ofLines_eq_ok_iff_results.mpr (h.results_eq path)

/-- Lines have numbered rules if every line that is meant as a rule writes one. -/
theorem exists_iff (number : Nat) :
    (∃ rules, NumberedTranscript number lines rules) ↔
      ∀ line ∈ lines, Line.IsRuleLine line → ∃ r, Line.Writes line r := by
  constructor
  · rintro ⟨rules, h⟩
    induction h with
    | nil => exact nofun
    | skip hskip _ ih => exact List.forall_mem_cons.mpr ⟨fun hrule => absurd hrule hskip, ih⟩
    | rule _ hwrites _ ih => exact List.forall_mem_cons.mpr ⟨fun _ => ⟨_, hwrites⟩, ih⟩
  · intro h
    induction lines generalizing number with
    | nil => exact ⟨[], .nil⟩
    | cons line lines ih =>
      obtain ⟨hline, hlines⟩ := List.forall_mem_cons.mp h
      obtain ⟨rules, hrules⟩ := ih (number + 1) hlines
      by_cases hrule : Line.IsRuleLine line
      · obtain ⟨r, hwrites⟩ := hline hrule
        exact ⟨_, .rule hrule hwrites hrules⟩
      · exact ⟨rules, .skip hrule hrules⟩

end NumberedTranscript

theorem Transcript.exists_numbered {lines : List (List Char)} {rules : List WrittenRule}
    (h : Transcript lines rules) (number : Nat) :
    ∃ numbered : List NumberedRule, NumberedTranscript number lines numbered ∧
      numbered.map (·.toWrittenRule) = rules := by
  induction h generalizing number with
  | nil => exact ⟨[], .nil, rfl⟩
  | skip hskip _ ih =>
    obtain ⟨numbered, hnumbered, heq⟩ := ih (number + 1)
    exact ⟨numbered, .skip hskip hnumbered, heq⟩
  | @rule _ _ r _ hrule hwrites _ ih =>
    obtain ⟨numbered, hnumbered, heq⟩ := ih (number + 1)
    exact ⟨⟨r, number⟩ :: numbered, .rule hrule hwrites hnumbered, by rw [List.map_cons, heq]⟩

namespace RuleLine

variable {path : String} {lines : List (List Char)} {rules : List WrittenRule}

/-- The rules that are read from lines are those that the lines write, with their numbers. -/
theorem ofLines_eq_ok_iff_numbered {read : List RuleLine} :
    ofLines path (lines.map some) = .ok read ↔
      ∃ numbered, NumberedTranscript 1 lines numbered ∧
        numbered.map NumberedRule.ruleLine = read := by
  constructor
  · intro h
    have hwrites : ∀ line ∈ lines, Line.IsRuleLine line → ∃ r, Line.Writes line r := by
      intro line hline hrule
      rcases read_cases line with ⟨e, hread⟩ | h'
      · exact absurd h
          (ofLines_ne_ok (List.mem_map_of_mem hline) (Line.isRule_iff.mpr hrule) hread)
      · exact h'
    obtain ⟨numbered, hnumbered⟩ := (NumberedTranscript.exists_iff 1).mpr hwrites
    exact ⟨numbered, hnumbered, Except.ok.inj ((hnumbered.ofLines_eq path).symm.trans h)⟩
  · rintro ⟨numbered, hnumbered, rfl⟩
    exact hnumbered.ofLines_eq path

theorem ofLines_toRule_iff {rs : List Rule} :
    (∃ numbered, ofLines path (lines.map some) = .ok numbered ∧
        numbered.map (·.toRule) = rs) ↔
      ∃ rules, Transcript lines rules ∧ rules.map (·.toRule) = rs := by
  constructor
  · rintro ⟨_, h, rfl⟩
    obtain ⟨numbered, hnumbered, rfl⟩ := ofLines_eq_ok_iff_numbered.mp h
    exact ⟨_, hnumbered.transcript, NumberedRule.toRule_ruleLine.symm⟩
  · rintro ⟨_, h, rfl⟩
    obtain ⟨numbered, hnumbered, rfl⟩ := h.exists_numbered 1
    exact ⟨_, hnumbered.ofLines_eq path, NumberedRule.toRule_ruleLine⟩

section

variable {numbered : List RuleLine} {start : Name}
  (h : numbered.map (·.toRule) = rules.map (·.toRule))

include h

theorem names_eq : numbered.map (·.name) = WrittenRule.names rules := by
  have hnames := congrArg (List.map Rule.name) h
  simpa [WrittenRule.names, Function.comp_def] using hnames

theorem forall_toRule_iff {P : Rule → Prop} :
    (∀ r ∈ numbered, P r.toRule) ↔ ∀ r ∈ rules, P r.toRule := by
  have hmaps : (∀ r ∈ numbered.map (·.toRule), P r) ↔ ∀ r ∈ rules.map (·.toRule), P r := by rw [h]
  simpa using hmaps

theorem undefined_iff :
    undefined path numbered = [] ↔
      ∀ r ∈ rules, ∀ a, .word a ∈ r.tokens → a ∈ WrittenRule.names rules := by
  rw [undefined_eq_nil_iff, names_eq h, forall_toRule_iff h
    (P := fun r => ∀ a ∈ nonterminalsIn r.alternatives, a ∈ WrittenRule.names rules)]
  simp only [(WrittenRule.rightSide _).mem_nonterminalsIn_iff]

theorem terminals_declaration :
    (declaration numbered start).terminals =
      (rules.flatMap (·.tokens)).filterMap Token.terminal? := by
  have hterminals := congrArg (List.flatMap fun r => terminalsIn r.alternatives) h
  rw [List.flatMap_map, List.flatMap_map] at hterminals
  rw [List.filterMap_flatMap]
  simp only [← (WrittenRule.rightSide _).terminalsIn_eq]
  exact hterminals

theorem collect_eq (a : Name) :
    Declaration.collect (numbered.map (·.toRule)) a =
      ((rules.filter (·.name == a)).flatMap (·.alternatives)).eraseDups := by
  rw [h, Declaration.collect, List.filter_map, List.flatMap_map]
  rfl

/-- The checks of the declared names that can fail for rules that were read. -/
theorem nameFault?_iff (hlines : Transcript lines rules) :
    (declaration numbered start).nameFault? = none ↔
      (∀ r ∈ rules, ∀ a, .quoted a ∈ r.tokens → a ∉ WrittenRule.names rules) ∧
        start ∈ WrittenRule.names rules := by
  have hnames : (declaration numbered start).nonterminals = WrittenRule.names rules := names_eq h
  rw [Declaration.nameFault?_eq_none_iff, hnames, terminals_declaration h]
  constructor
  · intro h'
    obtain ⟨hbare, _, hkinds, hstart⟩ := h'
    refine ⟨fun r hr a ha hmem => ?_, hstart⟩
    have hne : a ≠ "" := fun he => (isBareName_iff.mp (hbare a hmem)).1 (he ▸ rfl)
    exact hkinds a hmem (WrittenRule.mem_terminals.mpr ⟨hne, r, hr, ha⟩)
  · intro h'
    obtain ⟨hdistinct, hstart⟩ := h'
    refine ⟨fun a => hlines.isBareName, fun a => hlines.isQuotableName, fun a ha hmem => ?_, hstart⟩
    obtain ⟨_, r, hr, hquoted⟩ := WrittenRule.mem_terminals.mp hmem
    exact hdistinct r hr a hquoted ha

theorem grammar_declaration :
    (declaration numbered start).grammar (numbered.map (·.toRule)) =
      WrittenRule.grammar rules start := by
  have hnames : (declaration numbered start).nonterminals = WrittenRule.names rules := names_eq h
  simp only [Declaration.grammar, WrittenRule.grammar, hnames, terminals_declaration h,
    collect_eq h]
  rfl

end

/-- What is made of rules that were read is what they write. -/
theorem toGrammar_iff_coherent {numbered : List RuleLine} {start : Option Name} {g : Grammar}
    (h : numbered.map (·.toRule) = rules.map (·.toRule)) (hlines : Transcript lines rules) :
    toGrammar path start numbered = .ok g ↔
      WrittenRule.Coherent start rules ∧
        ∃ a, start.or (WrittenRule.names rules).head? = some a ∧
          g = WrittenRule.grammar rules a := by
  rw [toGrammar_eq_ok_iff]
  cases numbered with
  | nil =>
    have hnil : rules = [] := List.map_eq_nil_iff.mp h.symm
    constructor
    · rintro ⟨_, _, heq, _⟩
      cases heq
    · intro h'
      exact absurd hnil h'.1.ne_nil
  | cons first rest =>
    have hstart : start.or (WrittenRule.names rules).head? = some (start.getD first.name) := by
      rw [← names_eq h]
      cases start <;> rfl
    constructor
    · rintro ⟨_, _, ⟨rfl, rfl⟩, hdefined, hfault, rfl⟩
      obtain ⟨hdistinct, hmem⟩ := (nameFault?_iff h hlines).mp hfault
      refine ⟨⟨?_, (undefined_iff h).mp hdefined, hdistinct, ?_⟩, _, hstart, grammar_declaration h⟩
      · rintro rfl
        cases h
      · rintro a rfl
        exact hmem
    · rintro ⟨hcoherent, a, ha, rfl⟩
      obtain rfl : start.getD first.name = a := Option.some.inj (hstart.symm.trans ha)
      have hmem : start.getD first.name ∈ WrittenRule.names rules := by
        cases start with
        | none =>
          rw [← names_eq h]
          exact List.mem_cons_self
        | some a => exact hcoherent.start_mem a rfl
      exact ⟨first, rest, rfl, (undefined_iff h).mpr hcoherent.defined,
        (nameFault?_iff h hlines).mpr ⟨hcoherent.distinct, hmem⟩, (grammar_declaration h).symm⟩

end RuleLine

namespace Grammar

theorem ofText_eq_ok_iff {path text : String} {start : Option Name} {g : Grammar} :
    ofText path start text = .ok g ↔
      ∃ rules a, Transcript (Line.ofText text) rules ∧ WrittenRule.Coherent start rules ∧
        start.or (WrittenRule.names rules).head? = some a ∧ g = WrittenRule.grammar rules a := by
  unfold ofText ofLines
  rw [bind_eq_ok_iff]
  constructor
  · intro h'
    obtain ⟨numbered, hnumbered, hg⟩ := h'
    obtain ⟨rules, hlines, heq⟩ := RuleLine.ofLines_toRule_iff.mp ⟨numbered, hnumbered, rfl⟩
    obtain ⟨hcoherent, a, ha, hg⟩ := (RuleLine.toGrammar_iff_coherent heq.symm hlines).mp hg
    exact ⟨rules, a, hlines, hcoherent, ha, hg⟩
  · intro h'
    obtain ⟨rules, a, hlines, hcoherent, ha, hg⟩ := h'
    obtain ⟨numbered, hnumbered, heq⟩ := RuleLine.ofLines_toRule_iff.mpr ⟨rules, hlines, rfl⟩
    exact ⟨numbered, hnumbered,
      (RuleLine.toGrammar_iff_coherent heq hlines).mpr ⟨hcoherent, a, ha, hg⟩⟩

/-- Reading accepts a text exactly if its lines write rules that fit together, and it answers the
grammar that these rules write. The start symbol is the given one or else the first rule's. -/
theorem ofText_reads_written (path text : String) (start : Option Name) :
    ((∃ g, ofText path start text = .ok g) ↔
      ∃ rules, Transcript (Line.ofText text) rules ∧ WrittenRule.Coherent start rules) ∧
    ∀ g, ofText path start text = .ok g ↔
      ∃ rules a, Transcript (Line.ofText text) rules ∧ WrittenRule.Coherent start rules ∧
        start.or (WrittenRule.names rules).head? = some a ∧ g = WrittenRule.grammar rules a := by
  constructor
  · constructor
    · intro h'
      obtain ⟨g, h⟩ := h'
      obtain ⟨rules, _, hlines, hcoherent, _⟩ := ofText_eq_ok_iff.mp h
      exact ⟨rules, hlines, hcoherent⟩
    · intro h'
      obtain ⟨rules, hlines, hcoherent⟩ := h'
      obtain ⟨a, ha⟩ := hcoherent.exists_start
      exact ⟨_, ofText_eq_ok_iff.mpr ⟨rules, a, hlines, hcoherent, ha, rfl⟩⟩
  · exact fun g => ofText_eq_ok_iff

end Grammar

end ContextFree

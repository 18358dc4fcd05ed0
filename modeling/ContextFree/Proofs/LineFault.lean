import ContextFree.Proofs.Spacing
import Mathlib.Data.List.Permutation
import Mathlib.Data.List.TakeWhile

/-!
The errors of single lines. Every line that cannot be decoded, or is meant as a rule and writes
none, gives one error, in the order of the lines and with the number of its line.
-/

namespace ContextFree

/-- What is wrong with the tokens of a line that write no rule. -/
inductive Token.Fault : List Token → ReadError → Prop where
  | noLeftSide {tokens : List Token} :
      (∀ a, tokens.head? ≠ some (.word a)) → Fault tokens .noLeftSide
  | noEquals {a : Name} {tokens : List Token} :
      tokens.head? ≠ some .equals → Fault (.word a :: tokens) .noEquals
  | secondEquals {a : Name} {tokens : List Token} :
      .equals ∈ tokens → Fault (.word a :: .equals :: tokens) .secondEquals

namespace Line

/-- What is wrong with a line that writes no rule. -/
inductive Fault (line : List Char) : ReadError → Prop where
  | openQuote : line.count '"' % 2 = 1 → Fault line .openQuote
  | tokens {tokens : List Token} {e : ReadError} :
      Token.LaidOut line tokens → Token.Fault tokens e → Fault line e

/-- The error of a line of the file, of which nothing is left if it could not be decoded. -/
inductive Complaint (path : String) (number : Nat) :
    Option (List Char) → Located ReadError → Prop where
  | undecodable : Complaint path number none ⟨.whole path, .unreadable .undecodable⟩
  | fault {line : List Char} {e : ReadError} :
      IsRuleLine line → Fault line e → Complaint path number (some line) ⟨⟨path, some number⟩, e⟩

/-- The errors of lines in order, one for each line that has one. The first line has the given
number. -/
inductive Complaints (path : String) :
    Nat → List (Option (List Char)) → List (Located ReadError) → Prop where
  | nil {number : Nat} : Complaints path number [] []
  | good {number : Nat} {line : Option (List Char)} {lines : List (Option (List Char))}
      {errors : List (Located ReadError)} :
      (∀ e, ¬ Complaint path number line e) → Complaints path (number + 1) lines errors →
      Complaints path number (line :: lines) errors
  | bad {number : Nat} {line : Option (List Char)} {lines : List (Option (List Char))}
      {e : Located ReadError} {errors : List (Located ReadError)} :
      Complaint path number line e → Complaints path (number + 1) lines errors →
      Complaints path number (line :: lines) (e :: errors)

end Line

theorem Token.LaidOut.isRule_eq_false {line : List Char} (h : LaidOut line []) :
    Line.isRule line = false := by
  rw [Line.isRule, List.dropWhile_eq_nil_iff.mpr h.isBlank_of_mem]

theorem Token.ne_nil_of_scan {line : List Char} {tokens : List Token}
    (hrule : Line.isRule line = true) (h : scan line = some tokens) : tokens ≠ [] := by
  rintro rfl
  rw [(laidOut_of_scan h).isRule_eq_false] at hrule
  cases hrule

namespace RuleLine

theorem parse_eq_error_iff {tokens : List Token} (hne : tokens ≠ []) {e : ReadError} :
    parse tokens = .error e ↔ Token.Fault tokens e := by
  constructor
  · intro h
    unfold parse at h
    split at h
    next a rest =>
      rw [readAlternatives_eq] at h
      split at h
      next hequals =>
        obtain rfl := Except.error.inj h
        exact .secondEquals hequals
      next => cases h
    next a rest hequals =>
      obtain rfl := Except.error.inj h
      refine .noEquals fun hhead => ?_
      obtain ⟨others, rfl⟩ := List.head?_eq_some_iff.mp hhead
      exact hequals _ rfl
    next t rest _ hword =>
      obtain rfl := Except.error.inj h
      refine .noLeftSide fun a hhead => ?_
      exact hword a (Option.some.inj hhead)
    next => exact absurd rfl hne
  · intro h
    cases h with
    | noLeftSide hhead =>
      obtain ⟨t, rest, rfl⟩ := List.exists_cons_of_ne_nil hne
      cases t with
      | word a => exact absurd rfl (hhead a)
      | _ => rfl
    | @noEquals a rest hhead =>
      cases rest with
      | nil => rfl
      | cons t rest =>
        cases t with
        | equals => exact absurd rfl hhead
        | _ => rfl
    | secondEquals hequals => rw [parse_word_equals, if_pos hequals]

/-- A line that is meant as a rule cannot be read for what is wrong with it. -/
theorem read_eq_error_iff {line : List Char} (hrule : Line.isRule line = true) {e : ReadError} :
    read line = .error e ↔ Line.Fault line e := by
  unfold read
  split
  next hscan =>
    constructor
    · intro h
      obtain rfl := Except.error.inj h
      exact .openQuote (Token.scan_eq_none_iff.mp hscan)
    · intro h
      cases h with
      | openQuote => rfl
      | tokens hlaid _ => rw [Token.scan_of_laidOut hlaid] at hscan; cases hscan
  next tokens hscan =>
    rw [parse_eq_error_iff (Token.ne_nil_of_scan hrule hscan)]
    constructor
    · exact .tokens (Token.laidOut_of_scan hscan)
    · intro h
      cases h with
      | openQuote hodd => rw [Token.scan_eq_none_iff.mpr hodd] at hscan; cases hscan
      | tokens hlaid hfault =>
        obtain rfl := Option.some.inj (hscan.symm.trans (Token.scan_of_laidOut hlaid))
        exact hfault

variable {path : String} {number first : Nat} {line : Option (List Char)}
  {lines : List (Option (List Char))} {errors : List (Located ReadError)}

theorem complaint_iff {e : Located ReadError} :
    Line.Complaint path number line e ↔ ofLine path number line = some (.error e) := by
  constructor
  · intro h
    cases h with
    | undecodable => rfl
    | fault hrule hfault =>
      have hrule := Line.isRule_iff.mpr hrule
      rw [ofLine, if_pos hrule, (read_eq_error_iff hrule).mpr hfault]
  · intro h
    cases line with
    | none =>
      obtain rfl := Except.error.inj (Option.some.inj h)
      exact .undecodable
    | some line =>
      rw [ofLine] at h
      split at h
      next hrule =>
        cases hread : read line with
        | ok parsed => simp [hread] at h
        | error e' =>
          rw [hread] at h
          obtain rfl := Except.error.inj (Option.some.inj h)
          exact .fault (Line.isRule_iff.mp hrule) ((read_eq_error_iff hrule).mp hread)
      next => cases h

theorem complaints_iff :
    Line.Complaints path first lines errors ↔
      errors = (results path first lines).filterMap error? := by
  induction lines generalizing first errors with
  | nil =>
    constructor
    · intro h
      cases h
      rfl
    · rintro rfl
      exact .nil
  | cons line lines ih =>
    rw [results_cons_eq_append, List.filterMap_append]
    constructor
    · intro h
      cases h with
      | good hgood hrest =>
        rw [← ih.mp hrest]
        cases hof : ofLine path first line with
        | none => rfl
        | some result =>
          cases result with
          | error e => exact absurd (complaint_iff.mpr hof) (hgood e)
          | ok r => rfl
      | bad hbad hrest =>
        rw [← ih.mp hrest, complaint_iff.mp hbad]
        rfl
    · rintro rfl
      cases hof : ofLine path first line with
      | none =>
        refine .good (fun e he => ?_) (ih.mpr rfl)
        rw [complaint_iff.mp he] at hof
        cases hof
      | some result =>
        cases result with
        | error e => exact .bad (complaint_iff.mpr hof) (ih.mpr rfl)
        | ok r =>
          refine .good (fun e he => ?_) (ih.mpr rfl)
          rw [complaint_iff.mp he] at hof
          cases hof

/-- Reading fails with the errors of the lines, if there are any. -/
theorem ofLines_eq_error_iff :
    ofLines path lines = .error errors ↔ errors ≠ [] ∧ Line.Complaints path 1 lines errors := by
  rw [complaints_iff]
  unfold ofLines
  split
  next h => simp [h]
  next hne =>
    constructor
    · intro h
      obtain rfl := Except.error.inj h
      exact ⟨hne, rfl⟩
    · rintro ⟨_, rfl⟩
      rfl

theorem mem_complaints_iff (h : Line.Complaints path first lines errors) {e : Located ReadError} :
    e ∈ errors ↔
      ∃ line number, (line, number) ∈ lines.zipIdx first ∧ Line.Complaint path number line e := by
  have herror (result : Except (Located ReadError) RuleLine) :
      error? result = some e ↔ result = .error e := by
    cases result <;> simp [error?]
  rw [complaints_iff.mp h, List.mem_filterMap]
  simp only [herror, exists_eq_right, mem_results_iff, complaint_iff]

/-- A line has an error exactly if it cannot be decoded, or is meant as a rule and writes none. -/
theorem exists_complaint_iff :
    (∃ e, Line.Complaint path number line e) ↔
      ∀ cs, line = some cs → Line.IsRuleLine cs ∧ ∀ r, ¬ Line.Writes cs r := by
  cases line with
  | none => exact ⟨fun _ => nofun, fun _ => ⟨_, .undecodable⟩⟩
  | some cs =>
    simp only [Option.some.injEq, forall_eq']
    constructor
    · rintro ⟨_, hcomplaint⟩
      cases hcomplaint with
      | fault hrule hfault =>
        refine ⟨hrule, fun r hwrites => ?_⟩
        have hread := (read_eq_error_iff (Line.isRule_iff.mpr hrule)).mpr hfault
        rw [read_eq_ok_iff.mpr ⟨r, hwrites, rfl⟩] at hread
        cases hread
    · rintro ⟨hrule, hwrites⟩
      rcases read_cases cs with ⟨e, hread⟩ | ⟨r, h⟩
      · exact ⟨_, .fault hrule ((read_eq_error_iff (Line.isRule_iff.mpr hrule)).mp hread)⟩
      · exact absurd h (hwrites r)

/-- A line with an error makes the errors of all lines what reading gives. -/
theorem exists_complaints (hline : line ∈ lines)
    (h : ∀ number, ∃ e, Line.Complaint path number line e) :
    ∃ errors, ofLines path lines = .error errors ∧
      ∀ found, Line.Complaints path 1 lines found ↔ found = errors := by
  have hcomplaints := complaints_iff.mpr (Eq.refl ((results path 1 lines).filterMap error?))
  refine ⟨_, ofLines_eq_error_iff.mpr ⟨?_, hcomplaints⟩, fun found => complaints_iff⟩
  obtain ⟨number, hnumber⟩ := exists_mem_zipIdx hline 1
  obtain ⟨e, he⟩ := h number
  exact List.ne_nil_of_mem ((mem_complaints_iff hcomplaints).mpr ⟨line, number, hnumber, he⟩)

theorem exists_of_mem_undefined {rules : List RuleLine}
    {e : Located ReadError} (h : e ∈ undefined path rules) :
    ∃ r ∈ rules, ∃ a, e = ⟨⟨path, some r.number⟩, .undefinedName a⟩ := by
  obtain ⟨r, hr, h⟩ := List.mem_flatMap.mp h
  obtain ⟨a, _, rfl⟩ := List.mem_map.mp h
  exact ⟨r, hr, a, rfl⟩

/-- Rules that were read stand in lines that are meant as rules. -/
theorem exists_ruleLine_of_mem {rules : List RuleLine} (h : ofLines path lines = .ok rules)
    {r : RuleLine} (hr : r ∈ rules) :
    ∃ line, (some line, r.number) ∈ lines.zipIdx 1 ∧ Line.IsRuleLine line := by
  rw [ofLines_eq_ok_iff_results] at h
  have hresult : .ok r ∈ results path 1 lines := h ▸ List.mem_map_of_mem hr
  obtain ⟨line, number, hline, hof⟩ := mem_results_iff.mp hresult
  obtain ⟨cs, rfl, hrule, _, rfl⟩ := ofLine_eq_ok_iff.mp hof
  exact ⟨cs, hline, Line.isRule_iff.mp hrule⟩

end RuleLine

namespace Grammar

/-- Where an error of reading lines comes from: a line, a name of a rule, or the rules together. -/
inductive ErrorSource (path : String) (lines : List (Option (List Char))) :
    Located ReadError → Prop where
  | line {line : Option (List Char)} {number : Nat} {e : Located ReadError} :
      (line, number) ∈ lines.zipIdx 1 → Line.Complaint path number line e →
      ErrorSource path lines e
  | noRules : ErrorSource path lines ⟨.whole path, .noRules⟩
  | name {line : List Char} {number : Nat} {a : Name} :
      (some line, number) ∈ lines.zipIdx 1 → Line.IsRuleLine line →
      ErrorSource path lines ⟨⟨path, some number⟩, .undefinedName a⟩
  | rules {rules : List RuleLine} {a : Name} {fault : GrammarError} :
      RuleLine.ofLines path lines = .ok rules → RuleLine.undefined path rules = [] →
      (RuleLine.declaration rules a).toGrammar = .error fault →
      ErrorSource path lines ⟨.whole path, .incoherent fault⟩

section

variable {path : String} {start : Option Name} {lines : List (Option (List Char))}
  {errors : List (Located ReadError)} {e : Located ReadError}

theorem errorSource_of_mem (h : ofLines path start lines = .error errors) (he : e ∈ errors) :
    ErrorSource path lines e := by
  rcases ofLines_eq_error_iff.mp h with h | ⟨rules, hrules, h⟩
  · obtain ⟨_, hcomplaints⟩ := RuleLine.ofLines_eq_error_iff.mp h
    obtain ⟨line, number, hline, hcomplaint⟩ := (RuleLine.mem_complaints_iff hcomplaints).mp he
    exact .line hline hcomplaint
  · rcases RuleLine.toGrammar_error_cases h with
      ⟨_, rfl⟩ | ⟨_, _, rfl⟩ | ⟨_, _, fault, _, hdefined, hfault, rfl⟩
    · obtain rfl := List.mem_singleton.mp he
      exact .noRules
    · obtain ⟨r, hr, a, rfl⟩ := RuleLine.exists_of_mem_undefined he
      obtain ⟨line, hline, hrule⟩ := RuleLine.exists_ruleLine_of_mem hrules hr
      exact .name hline hrule
    · obtain rfl := List.mem_singleton.mp he
      exact .rules hrules hdefined hfault

/-- Whatever error has the number of a line, that line is meant as a rule. -/
theorem ErrorSource.exists_ruleLine (h : ErrorSource path lines e) {number : Nat}
    (hnumber : e.location.line? = some number) :
    ∃ line, (some line, number) ∈ lines.zipIdx 1 ∧ Line.IsRuleLine line := by
  cases h with
  | line hline hcomplaint =>
    cases hcomplaint with
    | undecodable => cases hnumber
    | fault hrule _ =>
      obtain rfl := Option.some.inj hnumber
      exact ⟨_, hline, hrule⟩
  | noRules => cases hnumber
  | name hline hrule =>
    obtain rfl := Option.some.inj hnumber
    exact ⟨_, hline, hrule⟩
  | rules => cases hnumber

end

/-- If a line of a file cannot be decoded, or is meant as a rule and writes none, then the errors of
all such lines are the result, one for each of them, in order and with the numbers of the lines.
Blank lines and comments have no errors. -/
theorem ofBytes_reports_lines (path : String) (start : Option Name) (bytes : ByteArray) :
    (none ∈ Line.ofBytes bytes ∨
        (∃ line, some line ∈ Line.ofBytes bytes ∧ Line.IsRuleLine line ∧
          ∀ r, ¬ Line.Writes line r) →
      ∃ errors, ofBytes path start bytes = .error errors ∧
        ∀ found, Line.Complaints path 1 (Line.ofBytes bytes) found ↔ found = errors) ∧
    ∀ errors, ofBytes path start bytes = .error errors → ∀ e ∈ errors, ∀ number,
      e.location.line? = some number →
        ∃ line, (some line, number) ∈ (Line.ofBytes bytes).zipIdx 1 ∧ Line.IsRuleLine line := by
  constructor
  · intro h
    have hbad : ∃ line ∈ Line.ofBytes bytes, ∀ number, ∃ e, Line.Complaint path number line e := by
      rcases h with h | ⟨line, hline, hrule, hwrites⟩
      · exact ⟨none, h, fun number => ⟨_, .undecodable⟩⟩
      · refine ⟨some line, hline, fun number => RuleLine.exists_complaint_iff.mpr ?_⟩
        rintro _ ⟨⟩
        exact ⟨hrule, hwrites⟩
    obtain ⟨line, hline, hcomplaint⟩ := hbad
    obtain ⟨errors, herrors, hunique⟩ := RuleLine.exists_complaints hline hcomplaint
    exact ⟨errors, ofLines_eq_error_iff.mpr (.inl herrors), hunique⟩
  · intro errors h e he number hnumber
    exact (errorSource_of_mem h he).exists_ruleLine hnumber

/-- Every kind of line stands in it, good and bad ones. -/
def patchwork : ByteArray :=
  ⟨(Line.encode "; notes\nS = \"a\" A\n".toList ++ [0xFF, 0x0A] ++
    Line.encode "\"a\" = A\n\r\nA \"b\"\n= \"\nA = \"b\" = \"c\"".toList).toArray⟩

def patchworkErrors : List (Located ReadError) :=
  [⟨.whole "g.bnf", .unreadable .undecodable⟩, ⟨⟨"g.bnf", some 4⟩, .noLeftSide⟩,
    ⟨⟨"g.bnf", some 6⟩, .noEquals⟩, ⟨⟨"g.bnf", some 7⟩, .openQuote⟩,
    ⟨⟨"g.bnf", some 8⟩, .secondEquals⟩]

theorem ofBytes_reports_lines_patchwork :
    none ∈ Line.ofBytes patchwork ∧ ofBytes "g.bnf" none patchwork = .error patchworkErrors ∧
      Line.Complaints "g.bnf" 1 (Line.ofBytes patchwork) patchworkErrors := by
  have hlines : Line.ofBytes patchwork =
      [some "; notes".toList, some "S = \"a\" A".toList, none, some "\"a\" = A".toList, some [],
        some "A \"b\"".toList, some "= \"".toList, some "A = \"b\" = \"c\"".toList] := by
    decide +kernel
  have hnone : none ∈ Line.ofBytes patchwork := by simp [hlines]
  have hread : ofBytes "g.bnf" none patchwork = .error patchworkErrors := by
    rw [ofBytes, hlines]
    cbv
  obtain ⟨errors, herrors, hunique⟩ := (ofBytes_reports_lines "g.bnf" none patchwork).1 (.inl hnone)
  obtain rfl := Except.error.inj (hread.symm.trans herrors)
  exact ⟨hnone, hread, (hunique _).mpr rfl⟩

end Grammar

end ContextFree

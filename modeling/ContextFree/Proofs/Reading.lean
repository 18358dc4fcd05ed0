import ContextFree.Bnf.Reading
import ContextFree.Proofs.Declaration
import ContextFree.Proofs.Line
import ContextFree.Proofs.Token

/-!
What reading makes of lines: the rules that they stand for, or errors if one line is no rule, and
from the rules the grammar that they write down.
-/

namespace ContextFree

namespace RuleLine

variable {path : String} {lines : List (Option (List Char))} {rules : List RuleLine}

theorem ofLine_eq_ok_iff {number : Nat} {line : Option (List Char)} {r : RuleLine} :
    ofLine path number line = some (.ok r) ↔
      ∃ cs, line = some cs ∧ Line.isRule cs = true ∧ read cs = .ok (r.name, r.alternatives) ∧
        r.number = number := by
  cases line with
  | none => simp [ofLine]
  | some cs =>
    rw [ofLine]
    by_cases hrule : Line.isRule cs = true
    · rw [if_pos hrule]
      cases h : read cs with
      | error e => simp [hrule, h]
      | ok parsed =>
        obtain ⟨⟨name, alternatives⟩, number'⟩ := r
        obtain ⟨name', alternatives'⟩ := parsed
        simp only [Option.some.injEq, Except.ok.injEq, RuleLine.mk.injEq, Rule.mk.injEq,
          exists_eq_left', h, hrule, Prod.mk.injEq, true_and, and_assoc, eq_comm (a := number)]
    · simp [hrule]

theorem mem_results_iff {first : Nat} {result : Except (Located ReadError) RuleLine} :
    result ∈ results path first lines ↔
      ∃ line number, (line, number) ∈ lines.zipIdx first ∧
        ofLine path number line = some result := by
  simp [results]

theorem results_cons_eq_append {first : Nat} {line : Option (List Char)} :
    results path first (line :: lines) =
      (ofLine path first line).toList ++ results path (first + 1) lines := by
  cases h : ofLine path first line <;> simp [results, h]

theorem results_cons {first : Nat} {line : Option (List Char)}
    {result : Except (Located ReadError) RuleLine} (h : ofLine path first line = some result) :
    results path first (line :: lines) = result :: results path (first + 1) lines := by
  rw [results_cons_eq_append, h]
  rfl

theorem ofLines_eq_ok_iff :
    ofLines path lines = .ok rules ↔
      (∀ e, .error e ∉ results path 1 lines) ∧
        rules = (results path 1 lines).filterMap Except.toOption := by
  have herrors : (results path 1 lines).filterMap error? = [] ↔
      ∀ e, .error e ∉ results path 1 lines := by
    rw [List.filterMap_eq_nil_iff]
    constructor
    · intro h e he
      cases h _ he
    · intro h result hresult
      cases result with
      | error e => exact absurd hresult (h e)
      | ok r => rfl
  unfold ofLines
  split
  next heq => simp [herrors.mp heq, eq_comm]
  next hne =>
    constructor
    · exact nofun
    · intro h'
      obtain ⟨h, _⟩ := h'
      exact absurd (herrors.mpr h) hne

/-- Every rule that is read stands in a line. -/
theorem exists_line_of_mem (h : ofLines path lines = .ok rules) {r : RuleLine} (hr : r ∈ rules) :
    ∃ line, some line ∈ lines ∧ read line = .ok (r.name, r.alternatives) := by
  obtain ⟨_, rfl⟩ := ofLines_eq_ok_iff.mp h
  obtain ⟨result, hresult, hr⟩ := List.mem_filterMap.mp hr
  obtain ⟨line, number, hline, hof⟩ := mem_results_iff.mp hresult
  cases result with
  | error e => cases hr
  | ok r' =>
    obtain rfl := Option.some.inj hr
    obtain ⟨cs, rfl, _, hread, _⟩ := ofLine_eq_ok_iff.mp hof
    exact ⟨cs, List.fst_mem_of_mem_zipIdx hline, hread⟩

theorem exists_mem_zipIdx {line : Option (List Char)} (h : line ∈ lines) (first : Nat) :
    ∃ number, (line, number) ∈ lines.zipIdx first := by
  rw [← List.zipIdx_map_fst first lines] at h
  obtain ⟨⟨_, number⟩, hnumber, rfl⟩ := List.mem_map.mp h
  exact ⟨number, hnumber⟩

/-- One line that is meant as a rule and is none spoils the reading. -/
theorem ofLines_ne_ok {line : List Char} (hline : some line ∈ lines)
    (hrule : Line.isRule line = true) {e : ReadError} (hread : read line = .error e) :
    ofLines path lines ≠ .ok rules := by
  intro h
  obtain ⟨number, hnumber⟩ := exists_mem_zipIdx hline 1
  have hof : ofLine path number (some line) = some (.error ⟨⟨path, some number⟩, e⟩) := by
    simp [ofLine, hrule, hread]
  exact (ofLines_eq_ok_iff.mp h).1 _ (mem_results_iff.mpr ⟨some line, number, hnumber, hof⟩)

/-- Lines that are all meant as rules and read as rules give these rules in order. -/
theorem ofLines_of_forall₂ (path : String) {lines : List (List Char)} {rules : List Rule}
    (h : List.Forall₂ (fun line r => Line.isRule line = true ∧
      read line = .ok (r.name, r.alternatives)) lines rules) :
    ∃ numbered : List RuleLine,
      ofLines path (lines.map some) = .ok numbered ∧ numbered.map toRule = rules := by
  have hresults (first : Nat) : ∃ numbered : List RuleLine,
      results path first (lines.map some) = numbered.map Except.ok ∧
        numbered.map toRule = rules := by
    induction h generalizing first with
    | nil => exact ⟨[], rfl, rfl⟩
    | @cons line r lines rules hline _ ih =>
      obtain ⟨numbered, hnumbered, hrules⟩ := ih (first + 1)
      have hof : ofLine path first (some line) = some (.ok ⟨r, first⟩) :=
        ofLine_eq_ok_iff.mpr ⟨line, rfl, hline.1, hline.2, rfl⟩
      refine ⟨⟨r, first⟩ :: numbered, ?_, by rw [List.map_cons, hrules]⟩
      rw [List.map_cons, results_cons hof, hnumbered, List.map_cons]
  obtain ⟨numbered, hnumbered, hrules⟩ := hresults 1
  have hok : ofLines path (lines.map some) = .ok numbered := by
    rw [ofLines_eq_ok_iff, hnumbered]
    constructor
    · intro e he
      obtain ⟨r, _, hr⟩ := List.mem_map.mp he
      cases hr
    · simp [List.filterMap_map, Function.comp_def, Except.toOption]
  exact ⟨numbered, hok, hrules⟩

/-- Without bars, only an equals sign spoils an alternative. -/
theorem readAlternative_eq {tokens : List Token} (h : .bar ∉ tokens) :
    readAlternative tokens =
      if .equals ∈ tokens then .error .secondEquals
      else .ok (tokens.filterMap Token.symbol?) := by
  induction tokens with
  | nil => rfl
  | cons t rest ih =>
    rw [List.mem_cons, not_or] at h
    have hrest := ih h.2
    have hsymbol : (t :: rest).filterMap Token.symbol? =
        t.symbol?.toList ++ rest.filterMap Token.symbol? := by
      rw [List.filterMap_cons]
      cases t.symbol? <;> rfl
    cases t with
    | equals => simp [readAlternative]
    | bar => exact absurd rfl h.1
    | _ =>
      by_cases hequals : .equals ∈ rest
      · simp [readAlternative, hrest, hequals, Except.map]
      · simp [readAlternative, hrest, hequals, hsymbol, Except.map]

theorem mapM_readAlternative {pieces : List (List Token)} (h : ∀ piece ∈ pieces, .bar ∉ piece) :
    pieces.mapM readAlternative =
      if ∃ piece ∈ pieces, .equals ∈ piece then .error .secondEquals
      else .ok (pieces.map (·.filterMap Token.symbol?)) := by
  induction pieces with
  | nil => simp [pure, Except.pure]
  | cons piece rest ih =>
    obtain ⟨hpiece, hrest⟩ := List.forall_mem_cons.mp h
    rw [List.mapM_cons, readAlternative_eq hpiece, ih hrest]
    by_cases hequals : .equals ∈ piece
    · simp [hequals, bind, Except.bind]
    · by_cases hothers : ∃ piece ∈ rest, .equals ∈ piece
      · simp [hequals, hothers, bind, Except.bind]
      · simp [hequals, hothers, bind, Except.bind, pure, Except.pure]

/-- Between two bars there is no bar left. So what is read behind an equals sign is what the tokens
stand for, unless there is a further equals sign. -/
theorem readAlternatives_eq (tokens : List Token) :
    readAlternatives tokens =
      if .equals ∈ tokens then .error .secondEquals else .ok (Token.alternatives tokens) := by
  have hbars : ∀ piece ∈ tokens.splitOn .bar, .bar ∉ piece := fun piece =>
    Line.notMem_of_mem_splitOn
  have hequals : (∃ piece ∈ tokens.splitOn .bar, .equals ∈ piece) ↔ .equals ∈ tokens :=
    ⟨fun ⟨piece, hpiece, hmem⟩ => Line.subset_of_mem_splitOn hpiece hmem,
      Line.exists_mem_splitOn (by decide)⟩
  unfold readAlternatives Token.alternatives
  by_cases hnil : tokens = []
  · simp [hnil]
  · rw [if_neg hnil, if_neg hnil, mapM_readAlternative hbars]
    simp only [hequals]

theorem parse_word_equals (a : Name) (rest : List Token) :
    parse (.word a :: .equals :: rest) =
      if .equals ∈ rest then .error .secondEquals else .ok (a, Token.alternatives rest) := by
  rw [parse, readAlternatives_eq]
  split <;> rfl

/-- A terminal that is read from a line stands in it between quotes. -/
theorem exists_quoted_of_read {line : List Char} {name : Name} {alternatives : List Alternative}
    (h : read line = .ok (name, alternatives)) {alternative : Alternative}
    (ha : alternative ∈ alternatives) {a : Name} (hs : .terminal a ∈ alternative) :
    ∃ tokens, Token.scan line = some tokens ∧ .quoted a ∈ tokens := by
  unfold read at h
  split at h
  next => cases h
  next tokens hscan =>
    refine ⟨tokens, hscan, ?_⟩
    unfold parse at h
    split at h
    next word rest =>
      rw [readAlternatives_eq] at h
      split at h
      next => cases h
      next =>
        obtain ⟨rfl, rfl⟩ := Prod.mk.inj (Except.ok.inj h)
        unfold Token.alternatives at ha
        split at ha
        next => cases ha
        next =>
          obtain ⟨piece, hpiece, rfl⟩ := List.mem_map.mp ha
          obtain ⟨t, ht, hsymbol⟩ := List.mem_filterMap.mp hs
          have hmem := Line.subset_of_mem_splitOn hpiece ht
          rw [← Token.eq_quoted_of_symbol? hsymbol]
          exact List.mem_cons_of_mem _ (List.mem_cons_of_mem _ hmem)
    next => cases h
    next => cases h
    next => cases h

theorem undefined_eq_nil_iff :
    undefined path rules = [] ↔
      ∀ r ∈ rules, ∀ a ∈ nonterminalsIn r.alternatives, a ∈ rules.map (·.name) := by
  simp [undefined]

/-- Why rules that were read give no grammar: there are none, names are undefined, or the grammar
would not be coherent. -/
theorem toGrammar_error_cases {start : Option Name} {errors : List (Located ReadError)}
    (h : toGrammar path start rules = .error errors) :
    (rules = [] ∧ errors = [⟨.whole path, .noRules⟩]) ∨
      (rules ≠ [] ∧ undefined path rules ≠ [] ∧ errors = undefined path rules) ∨
      ∃ first rest fault, rules = first :: rest ∧ undefined path rules = [] ∧
        (declaration rules (start.getD first.name)).toGrammar = .error fault ∧
        errors = [⟨.whole path, .incoherent fault⟩] := by
  cases rules with
  | nil => exact .inl ⟨rfl, (Except.error.inj h).symm⟩
  | cons first rest =>
    right
    rw [toGrammar] at h
    split at h
    next hdefined =>
      cases hgrammar : (declaration (first :: rest) (start.getD first.name)).toGrammar with
      | ok g => simp [hgrammar, Except.mapError] at h
      | error fault =>
        rw [hgrammar] at h
        exact .inr ⟨first, rest, fault, rfl, hdefined, hgrammar, (Except.error.inj h).symm⟩
    next hundefined => exact .inl ⟨List.cons_ne_nil _ _, hundefined, (Except.error.inj h).symm⟩

/-- In a declaration that rule lines make up, every name stands for the symbol that was written. -/
theorem rule_declaration {start : Name} (hdefined : undefined path rules = [])
    (hfault : (declaration rules start).nameFault? = none) {r : RuleLine} (hr : r ∈ rules) :
    (declaration rules start).rule (r.name, r.alternatives.map fun names => names.map Symbol.name) =
      .ok r.toRule := by
  obtain ⟨_, _, hkinds, _⟩ := Declaration.nameFault?_eq_none_iff.mp hfault
  refine Declaration.rule_eq_ok_iff.mpr ⟨List.mem_map_of_mem hr, rfl, ?_⟩
  rw [List.forall₂_map_left_iff, List.forall₂_same]
  intro alternative ha
  rw [List.forall₂_map_left_iff, List.forall₂_same]
  intro s hs
  rw [Declaration.symbol_eq_ok_iff]
  cases s with
  | terminal a =>
    have hterminal : a ∈ (declaration rules start).terminals :=
      List.mem_flatMap.mpr ⟨r, hr, mem_terminalsIn.mpr ⟨alternative, ha, hs⟩⟩
    exact .inr ⟨fun hn => hkinds a hn hterminal, hterminal, rfl⟩
  | nonterminal a =>
    have hmem : a ∈ nonterminalsIn r.alternatives :=
      mem_nonterminalsIn.mpr ⟨alternative, ha, hs⟩
    exact .inl ⟨undefined_eq_nil_iff.mp hdefined r hr a hmem, rfl⟩

theorem toGrammar_declaration_eq_ok_iff {start : Name} {g : Grammar}
    (hdefined : undefined path rules = []) :
    (declaration rules start).toGrammar = .ok g ↔
      (declaration rules start).nameFault? = none ∧
        g = (declaration rules start).grammar (rules.map toRule) := by
  rw [Declaration.toGrammar_eq_ok_iff]
  apply and_congr_right
  intro hfault
  have hentries (entries : List Rule) :
      List.Forall₂ (fun e r => (declaration rules start).rule e = .ok r)
        (declaration rules start).rules entries ↔ entries = rules.map toRule := by
    rw [show (declaration rules start).rules = rules.map fun r =>
      (r.name, r.alternatives.map fun names => names.map Symbol.name) from rfl,
      List.forall₂_map_left_iff]
    exact forall₂_eq_ok_iff fun r hr => rule_declaration hdefined hfault hr
  simp only [hentries, exists_eq_left]

/-- When rule lines give a grammar, and which. -/
theorem toGrammar_eq_ok_iff {start : Option Name} {g : Grammar} :
    toGrammar path start rules = .ok g ↔
      ∃ first rest, rules = first :: rest ∧ undefined path rules = [] ∧
        (declaration rules (start.getD first.name)).nameFault? = none ∧
        g = (declaration rules (start.getD first.name)).grammar (rules.map toRule) := by
  cases rules with
  | nil => simp [toGrammar]
  | cons first rest =>
    rw [toGrammar]
    constructor
    · intro h
      split at h
      next hdefined =>
        rw [mapError_eq_ok_iff, toGrammar_declaration_eq_ok_iff hdefined] at h
        exact ⟨first, rest, rfl, hdefined, h⟩
      next => cases h
    · intro h'
      obtain ⟨first', rest', heq, hdefined, h⟩ := h'
      obtain ⟨rfl, rfl⟩ := List.cons.inj heq
      rw [hdefined]
      dsimp only
      rwa [mapError_eq_ok_iff, toGrammar_declaration_eq_ok_iff hdefined]

end RuleLine

namespace Grammar

theorem ofBytes_toUTF8 (path : String) (start : Option Name) (text : String) :
    ofBytes path start text.toUTF8 = ofText path start text := by
  rw [ofBytes, Line.ofBytes_toUTF8, ofText]

theorem ofLines_eq_error_iff {path : String} {start : Option Name}
    {lines : List (Option (List Char))} {errors : List (Located ReadError)} :
    ofLines path start lines = .error errors ↔
      RuleLine.ofLines path lines = .error errors ∨
        ∃ rules, RuleLine.ofLines path lines = .ok rules ∧
          RuleLine.toGrammar path start rules = .error errors := by
  unfold ofLines
  cases RuleLine.ofLines path lines <;> simp [bind, Except.bind]

end Grammar

end ContextFree

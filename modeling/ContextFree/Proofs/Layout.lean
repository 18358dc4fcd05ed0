import ContextFree.Proofs.Spacing
import Mathlib.Data.List.Permutation
import Mathlib.Logic.Relation

/-!
The layout of a text: how its lines end, which blank lines and comments stand between its rules, and
the blanks around the tokens of a line. It does not matter for the grammar that is read.
-/

namespace ContextFree

/-- One change of the layout of a text, which is told by what stands between its line feeds. -/
inductive LayoutChange : List (List Char) → List (List Char) → Prop where
  /-- A line feed becomes a carriage return and a line feed. -/
  | returned (before behind : List (List Char)) (line next : List Char) :
      LayoutChange (before ++ line :: next :: behind) (before ++ (line ++ ['\r']) :: next :: behind)
  /-- A blank line or a comment is put in. -/
  | inserted (before behind : List (List Char)) {line : List Char} :
      '\n' ∉ line → ¬ Line.IsRuleLine line →
      LayoutChange (before ++ behind) (before ++ line :: behind)
  /-- A blank line or a comment is taken out. -/
  | deleted (before behind : List (List Char)) {line : List Char} :
      ¬ Line.IsRuleLine line → LayoutChange (before ++ line :: behind) (before ++ behind)
  /-- A blank is put in before, between or behind the tokens of a line. -/
  | spaced (before behind : List (List Char)) {left right : List Char} {ts us : List Token}
      {c : Char} :
      isBlank c = true → c ≠ '\n' → Token.LaidOut left ts → Token.LaidOut right us →
      Token.LaidOut (left ++ right) (ts ++ us) →
      LayoutChange (before ++ (left ++ right) :: behind) (before ++ (left ++ c :: right) :: behind)

/-- The second text comes of the first by changes of the layout. -/
def Restyled (text text' : String) : Prop :=
  Relation.ReflTransGen LayoutChange (text.toList.splitOn '\n') (text'.toList.splitOn '\n')

namespace Token

theorem LaidOut.insert_blank {left right : List Char} {ts us : List Token} {c : Char}
    (hleft : LaidOut left ts) (hright : LaidOut right us) (hc : isBlank c = true) :
    LaidOut (left ++ c :: right) (ts ++ us) := by
  induction hleft with
  | nil => exact .blank hc hright
  | blank hblank _ ih => exact .blank hblank ih
  | @token t line tokens ht hapart hline ih =>
    rw [List.append_assoc, List.cons_append]
    -- If this token is the last one on the left, then the new blank or an old one follows it.
    refine .token ht (fun hbare hnext => ?_) ih
    cases line with
    | nil => exact ⟨c, rfl, hc⟩
    | cons d rest =>
      cases tokens with
      | nil => exact ⟨d, rfl, hline.isBlank_of_mem d List.mem_cons_self⟩
      | cons u tokens => exact hapart hbare hnext

theorem scan_append_blank {line : List Char} {c : Char} (hc : isBlank c = true) :
    scan (line ++ [c]) = scan line := by
  cases h : scan line with
  | some tokens =>
    have hlaid := (laidOut_of_scan h).insert_blank .nil hc
    rw [List.append_nil] at hlaid
    exact scan_of_laidOut hlaid
  | none =>
    have hquote : c ≠ '"' := by
      rintro rfl
      exact absurd hc (by decide)
    rw [scan_eq_none_iff] at h ⊢
    rw [List.count_append, List.count_singleton, if_neg (by simpa using hquote), Nat.add_zero, h]

end Token

namespace Line

theorem isRule_insert_blank {c : Char} (hc : isBlank c = true) (left right : List Char) :
    isRule (left ++ c :: right) = isRule (left ++ right) := by
  induction left with
  | nil => simp [isRule, hc]
  | cons d rest ih =>
    by_cases hd : isBlank d = true
    · simpa [isRule, hd] using ih
    · simp [isRule, hd]

theorem isRule_append_blank {c : Char} (hc : isBlank c = true) (line : List Char) :
    isRule (line ++ [c]) = isRule line := by
  rw [isRule_insert_blank hc, List.append_nil]

/-- The tokens of the lines that are meant as rules. -/
def ruleTokens (lines : List (List Char)) : List (Option (List Token)) :=
  (lines.filter isRule).map Token.scan

@[simp] theorem ruleTokens_append (lines others : List (List Char)) :
    ruleTokens (lines ++ others) = ruleTokens lines ++ ruleTokens others := by
  simp [ruleTokens]

theorem ruleTokens_cons (line : List Char) (lines : List (List Char)) :
    ruleTokens (line :: lines) =
      (if isRule line then [Token.scan line] else []) ++ ruleTokens lines := by
  by_cases h : isRule line = true <;> simp [ruleTokens, h]

theorem ruleTokens_cons_of_skip {line : List Char} (h : ¬ IsRuleLine line)
    (lines : List (List Char)) : ruleTokens (line :: lines) = ruleTokens lines := by
  rw [ruleTokens_cons, if_neg fun hrule => h (isRule_iff.mp hrule), List.nil_append]

theorem ruleTokens_cons_append_blank {c : Char} (hc : isBlank c = true) (line : List Char)
    (lines : List (List Char)) :
    ruleTokens ((line ++ [c]) :: lines) = ruleTokens (line :: lines) := by
  rw [ruleTokens_cons, ruleTokens_cons, isRule_append_blank hc, Token.scan_append_blank hc]

theorem ruleTokens_dropReturn (lines : List (List Char)) :
    ruleTokens (lines.map dropReturn) = ruleTokens lines := by
  induction lines with
  | nil => rfl
  | cons line rest ih =>
    rw [List.map_cons, ruleTokens_cons, ih, ← ruleTokens_cons]
    rcases dropReturn_cases line with h | h
    · rw [h]
    · have hreturn : isBlank '\r' = true := by decide
      rw [← ruleTokens_cons_append_blank hreturn (dropReturn line), ← h]

/-- Whether a line feed stands behind a carriage return does not matter for what is written. -/
theorem ruleTokens_ofText (text : String) :
    ruleTokens (ofText text) = ruleTokens (text.toList.splitOn '\n') := by
  obtain ⟨ended, last, hsplit⟩ := List.eq_nil_or_concat' (text.toList.splitOn '\n') |>.resolve_left
    (List.splitOn_ne_nil _ _)
  have hlast : ruleTokens (if last = [] then [] else [last]) = ruleTokens [last] := by
    split
    next h => rw [h]; rfl
    next => rfl
  rw [ofText]
  simp only [pieces, hsplit, List.dropLast_concat, List.getLast?_concat, Option.getD_some,
    ruleTokens_append, ruleTokens_dropReturn, hlast]

end Line

/-- A layout change leaves the rules' tokens as they are. -/
theorem LayoutChange.ruleTokens_eq {lines lines' : List (List Char)}
    (h : LayoutChange lines lines') : Line.ruleTokens lines' = Line.ruleTokens lines := by
  cases h with
  | returned =>
    -- A carriage return is a blank like any other.
    rw [Line.ruleTokens_append, Line.ruleTokens_append,
      Line.ruleTokens_cons_append_blank (by decide)]
  | inserted before behind _ hskip => simp [Line.ruleTokens_cons_of_skip hskip]
  | deleted before behind hskip => simp [Line.ruleTokens_cons_of_skip hskip]
  | @spaced _ _ left right _ _ c hc _ hleft hright hline =>
    have hscan : Token.scan (left ++ c :: right) = Token.scan (left ++ right) := by
      rw [Token.scan_of_laidOut hline, Token.scan_of_laidOut (hleft.insert_blank hright hc)]
    rw [Line.ruleTokens_append, Line.ruleTokens_append, Line.ruleTokens_cons, Line.ruleTokens_cons,
      Line.isRule_insert_blank hc, hscan]

theorem ruleTokens_eq_of_layoutChanges {lines lines' : List (List Char)}
    (h : Relation.ReflTransGen LayoutChange lines lines') :
    Line.ruleTokens lines' = Line.ruleTokens lines := by
  induction h with
  | refl => rfl
  | tail _ hstep ih => rw [hstep.ruleTokens_eq, ih]

theorem Restyled.ruleTokens_eq {text text' : String} (h : Restyled text text') :
    Line.ruleTokens (Line.ofText text') = Line.ruleTokens (Line.ofText text) := by
  rw [Line.ruleTokens_ofText, Line.ruleTokens_ofText, ruleTokens_eq_of_layoutChanges h]

/-- Which rules lines write is told by the tokens. -/
theorem transcript_iff_ruleTokens {lines : List (List Char)} {rules : List WrittenRule} :
    Transcript lines rules ↔
      Line.ruleTokens lines = rules.map fun r => some (.word r.name :: .equals :: r.tokens) := by
  constructor
  · intro h
    induction h with
    | nil => rfl
    | skip hskip _ ih => rw [Line.ruleTokens_cons_of_skip hskip, ih]
    | rule hrule hwrites _ ih =>
      simp [Line.ruleTokens_cons, Line.isRule_iff.mpr hrule, hwrites.2, ih]
  · intro h
    induction lines generalizing rules with
    | nil =>
      obtain rfl := List.map_eq_nil_iff.mp h.symm
      exact .nil
    | cons line rest ih =>
      rw [Line.ruleTokens_cons] at h
      split at h
      next hrule =>
        cases rules with
        | nil => cases h
        | cons r rules =>
          obtain ⟨hscan, hrest⟩ := List.cons.inj h
          have hquotes : ¬ line.count '"' % 2 = 1 := by
            rw [← Token.scan_eq_none_iff, hscan]
            exact nofun
          exact .rule (Line.isRule_iff.mp hrule) ⟨by omega, hscan⟩ (ih hrest)
      next hskip => exact .skip (fun hrule => hskip (Line.isRule_iff.mpr hrule)) (ih h)

/-- The layout of a text does not matter for the grammar that is read from it. -/
theorem Grammar.ofText_ignores_layout (path : String) (start : Option Name) {text text' : String}
    {g : Grammar} (h : Restyled text text') (hread : ofText path start text = .ok g) :
    ofText path start text' = .ok g := by
  rw [ofText_eq_ok_iff] at hread ⊢
  simp only [transcript_iff_ruleTokens] at hread ⊢
  rwa [h.ruleTokens_eq]

namespace Grammar

/-- Blanks are used only where they have to be. -/
def dense : String := "S=\"x y\"A|ε\n;old\nA=S"

/-- The same rules under another comment. -/
def airy : String := " ; new\nS= \"x y\"A|ε\r\nA=S"

def denseGrammar : Grammar where
  nonterminals := ["S", "A"]
  terminals := ["x y"]
  rules := [⟨"S", [[.terminal "x y", .nonterminal "A"], []]⟩, ⟨"A", [[.nonterminal "S"]]⟩]
  start := "S"

theorem ofText_ignores_layout_airy :
    Restyled dense airy ∧ ofText "g.bnf" none dense = .ok denseGrammar ∧
      ofText "g.bnf" none airy = .ok denseGrammar := by
  have hdense : dense.toList.splitOn '\n' =
      ["S=\"x y\"A|ε".toList, ";old".toList, "A=S".toList] := by cbv
  have hairy : airy.toList.splitOn '\n' =
      [" ; new".toList, "S= \"x y\"A|ε\r".toList, "A=S".toList] := by cbv
  have hskip : ∀ line, Line.isRule line = false → ¬ Line.IsRuleLine line := by
    intro line h
    rw [← Line.isRule_iff, h]
    exact Bool.false_ne_true
  have hleft : Token.LaidOut "S=".toList [.word "S", .equals] := Token.laidOut_of_scan (by cbv)
  have hright : Token.LaidOut "\"x y\"A|ε".toList [.quoted "x y", .word "A", .bar, .epsilon] :=
    Token.laidOut_of_scan (by cbv)
  have hline : Token.LaidOut ("S=".toList ++ "\"x y\"A|ε".toList)
      [.word "S", .equals, .quoted "x y", .word "A", .bar, .epsilon] :=
    Token.laidOut_of_scan (by cbv)
  have hlayout : Restyled dense airy := by
    rw [Restyled, hdense, hairy]
    refine .head (.spaced [] [_, _] (c := ' ') rfl (by decide) hleft hright hline) ?_
    refine .head (.returned [] [_] _ _) ?_
    refine .head (.deleted [_] [_] (hskip _ (by decide))) ?_
    exact .single (.inserted [] [_, _] (by decide) (hskip _ (by decide)))
  have hread : ofText "g.bnf" none dense = .ok denseGrammar := by cbv
  exact ⟨hlayout, hread, ofText_ignores_layout "g.bnf" none hlayout hread⟩

end Grammar

end ContextFree

import ContextFree.Proofs.Written

/-!
Scanning is the inverse of laying out tokens on a line with blanks around them.
-/

namespace ContextFree

namespace Token

/-- A bare word, as the word for the empty alternative is one. -/
def IsBare : Token → Prop
  | word _ => True
  | epsilon => True
  | _ => False

/-- The line holds the tokens in order, each of them in its written form, with any blanks before,
between and behind them. A blank keeps two neighbouring bare words apart. -/
inductive LaidOut : List Char → List Token → Prop where
  | nil : LaidOut [] []
  | blank {c : Char} {line : List Char} {tokens : List Token} :
      isBlank c = true → LaidOut line tokens → LaidOut (c :: line) tokens
  | token {t : Token} {line : List Char} {tokens : List Token} :
      t.IsWritable →
      (t.IsBare → (∃ u ∈ tokens.head?, u.IsBare) → ∃ c ∈ line.head?, isBlank c = true) →
      LaidOut line tokens → LaidOut (t.text ++ line) (t :: tokens)

theorem LaidOut.token_of_not_isBare {t : Token} {line : List Char} {tokens : List Token}
    (ht : t.IsWritable) (hbare : ¬ t.IsBare) (hline : LaidOut line tokens) :
    LaidOut (t.text ++ line) (t :: tokens) :=
  .token ht (absurd · hbare) hline

theorem text_ofWord (a : Name) : (ofWord a).text = a.toList := by
  unfold ofWord
  split
  next h => rw [h]; rfl
  next => rfl

theorem endsWord_of_isBlank {c : Char} (h : isBlank c = true) : endsWord c = true := by
  simp [endsWord, h]

/-- What is no bare word begins with a character that ends one. -/
theorem endsWord_of_not_isBare {t : Token} (h : ¬ t.IsBare) {c : Char} (hc : c ∈ t.text.head?) :
    endsWord c = true := by
  cases t with
  | word a => exact absurd trivial h
  | epsilon => exact absurd trivial h
  | _ =>
    obtain rfl := Option.some.inj hc
    decide

/-- A bare word is followed by a character that ends it. -/
theorem LaidOut.endsWord_head? {line : List Char} {tokens : List Token} (h : LaidOut line tokens)
    (hhead : (∃ u ∈ tokens.head?, u.IsBare) → ∃ c ∈ line.head?, isBlank c = true) {c : Char}
    (hc : c ∈ line.head?) : endsWord c = true := by
  cases h with
  | nil => cases hc
  | blank hblank _ =>
    obtain rfl := Option.some.inj hc
    exact endsWord_of_isBlank hblank
  | @token t rest tokens ht _ _ =>
    by_cases hbare : t.IsBare
    · obtain ⟨d, hd, hblank⟩ := hhead ⟨t, rfl, hbare⟩
      obtain rfl := Option.some.inj (hc.symm.trans hd)
      exact endsWord_of_isBlank hblank
    · obtain ⟨d, ds, htext⟩ := List.exists_cons_of_ne_nil (text_ne_nil ht)
      refine endsWord_of_not_isBare hbare ?_
      rw [htext] at hc ⊢
      exact hc

/-- A line that holds no tokens is blank. -/
theorem LaidOut.isBlank_of_mem {line : List Char} (h : LaidOut line []) :
    ∀ c ∈ line, isBlank c = true := by
  generalize htokens : ([] : List Token) = tokens at h
  induction h with
  | nil => exact nofun
  | blank hblank _ ih => exact List.forall_mem_cons.mpr ⟨hblank, ih htokens⟩
  | token => cases htokens

theorem scan_of_laidOut {line : List Char} {tokens : List Token} (h : LaidOut line tokens) :
    scan line = some tokens := by
  induction h with
  | nil => rw [scan]
  | blank hblank _ ih => rw [scan_blank hblank, ih]
  | @token t line tokens ht hapart hline ih =>
    have hscan : scan (t.text ++ line) = (scan line).map (t :: ·) := by
      by_cases hbare : t.IsBare
      · exact scan_text_append ht fun c hc => hline.endsWord_head? (hapart hbare) hc
      · cases t with
        | equals => exact scan_equals line
        | bar => exact scan_bar line
        | quoted a =>
          have hquoted := scan_quoted ht line
          rw [String.ofList_toList] at hquoted
          simpa [text] using hquoted
        | _ => exact absurd trivial hbare
    rw [hscan, ih]
    rfl

theorem mem_of_scan_quote {line : List Char} {tokens : List Token}
    (h : scan ('"' :: line) = some tokens) : '"' ∈ line := by
  by_contra hquote
  have hcount : line.count '"' = 0 := List.count_eq_zero.mpr hquote
  have hnone : scan ('"' :: line) = none := by
    rw [scan_eq_none_iff, List.count_cons_self, hcount]
  rw [hnone] at h
  cases h

/-- Tokens that follow a bare word at once begin with no bare word. -/
theorem exists_blank_of_scan {line : List Char} {tokens : List Token}
    (h : scan line = some tokens) (hend : ∀ c ∈ line.head?, endsWord c = true)
    (hbare : ∃ u ∈ tokens.head?, u.IsBare) : ∃ c ∈ line.head?, isBlank c = true := by
  cases line with
  | nil =>
    rw [scan] at h
    obtain rfl := Option.some.inj h
    obtain ⟨_, hu, _⟩ := hbare
    cases hu
  | cons c line =>
    refine ⟨c, rfl, ?_⟩
    by_contra hblank
    have hend := hend c rfl
    simp only [endsWord, hblank, Bool.or_eq_true, beq_iff_eq, false_or] at hend
    have hhead : ∃ t rest, tokens = t :: rest ∧ ¬ t.IsBare := by
      rcases hend with (rfl | rfl) | rfl
      · rw [scan_equals] at h
        obtain ⟨rest, _, rfl⟩ := Option.map_eq_some_iff.mp h
        exact ⟨_, rest, rfl, id⟩
      · rw [scan_bar] at h
        obtain ⟨rest, _, rfl⟩ := Option.map_eq_some_iff.mp h
        exact ⟨_, rest, rfl, id⟩
      · obtain ⟨a, others, rfl, ha⟩ := List.eq_append_cons_of_mem (mem_of_scan_quote h)
        rw [scan_quoted ha] at h
        obtain ⟨rest, _, rfl⟩ := Option.map_eq_some_iff.mp h
        exact ⟨_, rest, rfl, id⟩
    obtain ⟨t, rest, rfl, ht⟩ := hhead
    obtain ⟨u, hu, hbare⟩ := hbare
    obtain rfl := Option.some.inj hu
    exact ht hbare

theorem endsWord_head?_dropWhile (line : List Char) :
    ∀ c ∈ (line.dropWhile isWordChar).head?, endsWord c = true := by
  intro c hc
  have hstop := List.head?_dropWhile_not isWordChar line
  rw [hc] at hstop
  simpa [isWordChar] using hstop

theorem laidOut_of_scan {line : List Char} {tokens : List Token} (h : scan line = some tokens) :
    LaidOut line tokens := by
  have hwritable := isWritable_of_scan h
  fun_induction scan line generalizing tokens with
  | case1 =>
    obtain rfl := Option.some.inj h
    exact .nil
  | case2 c cs hblank ih => exact .blank hblank (ih h hwritable)
  | case3 cs _ ih =>
    obtain ⟨rest, hrest, rfl⟩ := Option.map_eq_some_iff.mp h
    obtain ⟨ht, hwritable⟩ := List.forall_mem_cons.mp hwritable
    exact .token_of_not_isBare ht id (ih hrest hwritable)
  | case4 cs _ _ ih =>
    obtain ⟨rest, hrest, rfl⟩ := Option.map_eq_some_iff.mp h
    obtain ⟨ht, hwritable⟩ := List.forall_mem_cons.mp hwritable
    exact .token_of_not_isBare ht id (ih hrest hwritable)
  | case5 cs hquote _ _ _ ih =>
    obtain ⟨rest, hrest, rfl⟩ := Option.map_eq_some_iff.mp h
    obtain ⟨ht, hwritable⟩ := List.forall_mem_cons.mp hwritable
    have hsplit := (beforeQuote_append_behindQuote (by simpa using hquote)).1
    have hlaid := LaidOut.token_of_not_isBare ht id (ih hrest hwritable)
    have hline : (quoted (String.ofList (beforeQuote cs))).text ++ behindQuote cs = '"' :: cs := by
      simpa [text] using hsplit.symm
    rwa [hline] at hlaid
  | case6 => cases h
  | case7 c cs hblank hequals hbar hquote ih =>
    obtain ⟨rest, hrest, rfl⟩ := Option.map_eq_some_iff.mp h
    obtain ⟨ht, hwritable⟩ := List.forall_mem_cons.mp hwritable
    have hapart := exists_blank_of_scan hrest (endsWord_head?_dropWhile cs)
    have hlaid := LaidOut.token ht (fun _ => hapart) (ih hrest hwritable)
    have hline : (ofWord (String.ofList (c :: cs.takeWhile isWordChar))).text ++
        cs.dropWhile isWordChar = c :: cs := by
      rw [text_ofWord, String.toList_ofList, List.cons_append, List.takeWhile_append_dropWhile]
    rwa [hline] at hlaid

/-- Scanning finds the tokens that a line holds. -/
theorem scan_eq_some_iff {line : List Char} {tokens : List Token} :
    scan line = some tokens ↔ LaidOut line tokens :=
  ⟨laidOut_of_scan, scan_of_laidOut⟩

end Token

theorem RuleLine.parse_ne_openQuote (tokens : List Token) : parse tokens ≠ .error .openQuote := by
  unfold parse
  split
  · rw [readAlternatives_eq]
    split <;> exact nofun
  · exact nofun
  · exact nofun
  · exact nofun

theorem RuleLine.read_eq_openQuote_iff {line : List Char} :
    read line = .error .openQuote ↔ Token.scan line = none := by
  unfold read
  split
  next h => simp [h]
  next tokens h => simp [h, parse_ne_openQuote]

/-- Scanning undoes laying out. It finds tokens exactly in the lines that hold them with blanks
around them, and it fails, by an open quote, exactly if the quotes of a line are odd in number. -/
theorem Token.scan_undoes_layout (line : List Char) (tokens : List Token) :
    (scan line = some tokens ↔ LaidOut line tokens) ∧
      (scan line = none ↔ line.count '"' % 2 = 1) ∧
      (RuleLine.read line = .error .openQuote ↔ line.count '"' % 2 = 1) :=
  ⟨scan_eq_some_iff, scan_eq_none_iff, RuleLine.read_eq_openQuote_iff.trans scan_eq_none_iff⟩

/-- Quotes may touch their neighbours, and blanks between them belong to the name. -/
example : Token.scan "A=B\" b\"\"\"|ε ".toList =
    some [.word "A", .equals, .word "B", .quoted " b", .quoted "", .bar, .epsilon] := by
  cbv

end ContextFree

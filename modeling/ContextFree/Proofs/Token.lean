import ContextFree.Bnf.Token

/-!
Scanning takes a line apart into the tokens that were written, if these are spaced out and can be
written at all. It fails exactly if the quotes of the line are odd in number.
-/

namespace ContextFree

namespace Token

theorem beforeQuote_append {a : List Char} (h : '"' ∉ a) (rest : List Char) :
    beforeQuote (a ++ '"' :: rest) = a := by
  have hall : ∀ c ∈ a, (c != '"') = true := fun c hc => by
    rw [bne_iff_ne]
    rintro rfl
    exact h hc
  rw [beforeQuote, List.takeWhile_append_of_pos hall]
  simp

theorem behindQuote_append {a : List Char} (h : '"' ∉ a) (rest : List Char) :
    behindQuote (a ++ '"' :: rest) = rest := by
  have hall : ∀ c ∈ a, (c != '"') = true := fun c hc => by
    rw [bne_iff_ne]
    rintro rfl
    exact h hc
  rw [behindQuote, List.dropWhile_append_of_pos hall]
  simp

/-- What stands behind an opening quote, taken apart at the closing one. -/
theorem beforeQuote_append_behindQuote {cs : List Char} (h : '"' ∈ cs) :
    cs = beforeQuote cs ++ '"' :: behindQuote cs ∧ '"' ∉ beforeQuote cs := by
  obtain ⟨a, rest, rfl, ha⟩ := List.eq_append_cons_of_mem h
  rw [beforeQuote_append ha, behindQuote_append ha]
  exact ⟨rfl, ha⟩

theorem scan_blank {c : Char} (h : isBlank c = true) (rest : List Char) :
    scan (c :: rest) = scan rest := by
  rw [scan, if_pos h]

theorem scan_equals (rest : List Char) : scan ('=' :: rest) = (scan rest).map (equals :: ·) := by
  rw [scan]
  simp [show isBlank '=' = false by decide]

theorem scan_bar (rest : List Char) : scan ('|' :: rest) = (scan rest).map (bar :: ·) := by
  rw [scan]
  simp [show isBlank '|' = false by decide]

theorem scan_quoted {a : List Char} (h : '"' ∉ a) (rest : List Char) :
    scan ('"' :: (a ++ '"' :: rest)) = (scan rest).map (quoted (String.ofList a) :: ·) := by
  rw [scan]
  simp [show isBlank '"' = false by decide, beforeQuote_append h, behindQuote_append h]

theorem scan_word {a : List Char} (hne : a ≠ []) (ha : ∀ c ∈ a, endsWord c = false)
    {rest : List Char} (hrest : ∀ c, rest.head? = some c → endsWord c = true) :
    scan (a ++ rest) = (scan rest).map (ofWord (String.ofList a) :: ·) := by
  obtain ⟨c, cs, rfl⟩ := List.exists_cons_of_ne_nil hne
  obtain ⟨hc, hcs⟩ := List.forall_mem_cons.mp ha
  have hword : ∀ d ∈ cs, isWordChar d = true := fun d hd => by simp [isWordChar, hcs d hd]
  have hstop : rest.takeWhile isWordChar = [] ∧ rest.dropWhile isWordChar = rest := by
    cases rest with
    | nil => simp
    | cons d rest => simp [isWordChar, hrest d rfl]
  simp only [endsWord, Bool.or_eq_false_iff, beq_eq_false_iff_ne] at hc
  rw [List.cons_append, scan]
  simp [hc, List.takeWhile_append_of_pos hword, List.dropWhile_append_of_pos hword, hstop]

/-- How a token is written. -/
def text : Token → List Char
  | equals => ['=']
  | bar => ['|']
  | epsilon => emptyWord.toList
  | word a => a.toList
  | quoted a => '"' :: (a.toList ++ ['"'])

/-- Whether a token reads back as itself. -/
def IsWritable : Token → Prop
  | word a => a.toList ≠ [] ∧ a ≠ emptyWord ∧ ∀ c ∈ a.toList, endsWord c = false
  | quoted a => '"' ∉ a.toList
  | _ => True

theorem scan_text_append {t : Token} (ht : t.IsWritable) {rest : List Char}
    (hrest : ∀ c, rest.head? = some c → endsWord c = true) :
    scan (t.text ++ rest) = (scan rest).map (t :: ·) := by
  cases t with
  | equals => exact scan_equals rest
  | bar => exact scan_bar rest
  | epsilon =>
    have hletter : ∀ c ∈ ['ε'], endsWord c = false :=
      List.forall_mem_singleton.mpr (by decide)
    exact scan_word (List.cons_ne_nil _ _) hletter hrest
  | word a =>
    obtain ⟨hne, hepsilon, ha⟩ := ht
    have h := scan_word hne ha hrest
    rwa [String.ofList_toList, ofWord, if_neg hepsilon] at h
  | quoted a =>
    have h := scan_quoted ht rest
    rw [String.ofList_toList] at h
    simpa [text] using h

/-- Tokens with one blank between neighbours. -/
def spaced (tokens : List Token) : List Char := [' '].intercalate (tokens.map text)

@[simp] theorem spaced_nil : spaced [] = [] := rfl

@[simp] theorem spaced_singleton (t : Token) : spaced [t] = t.text := by
  simp [spaced]

theorem spaced_cons_cons (t u : Token) (rest : List Token) :
    spaced (t :: u :: rest) = t.text ++ ' ' :: spaced (u :: rest) := by
  simp [spaced, List.intercalate_cons_cons]

theorem scan_spaced {tokens : List Token} (h : ∀ t ∈ tokens, t.IsWritable) :
    scan (spaced tokens) = some tokens := by
  induction tokens with
  | nil => rw [spaced_nil, scan]
  | cons t rest ih =>
    obtain ⟨ht, hrest⟩ := List.forall_mem_cons.mp h
    cases rest with
    | nil =>
      have hscan := @scan_text_append t ht [] (by simp)
      rwa [List.append_nil, scan, ← spaced_singleton] at hscan
    | cons u rest =>
      have hstop : ∀ c, (' ' :: spaced (u :: rest)).head? = some c → endsWord c = true := by
        intro c hc
        rw [← Option.some.inj hc]
        decide
      rw [spaced_cons_cons, scan_text_append ht hstop, scan_blank (by decide), ih hrest]
      rfl

/-- A line can be scanned unless one of its quotes is not closed. -/
theorem scan_eq_none_iff {line : List Char} :
    scan line = none ↔ line.count '"' % 2 = 1 := by
  fun_induction scan line with
  | case1 => simp
  | case2 c cs hblank ih =>
    have hne : c ≠ '"' := by
      rintro rfl
      exact absurd hblank (by decide)
    rw [ih, List.count_cons_of_ne hne]
  | case3 cs _ ih => rw [Option.map_eq_none_iff, ih, List.count_cons_of_ne (by decide)]
  | case4 cs _ _ ih => rw [Option.map_eq_none_iff, ih, List.count_cons_of_ne (by decide)]
  | case5 cs hquote _ _ _ ih =>
    obtain ⟨hsplit, hbefore⟩ := beforeQuote_append_behindQuote (by simpa using hquote)
    have hcount : cs.count '"' = (behindQuote cs).count '"' + 1 := by
      rw [hsplit, behindQuote_append hbefore, List.count_append, List.count_eq_zero.mpr hbefore,
        List.count_cons_self, Nat.zero_add]
    rw [Option.map_eq_none_iff, ih, List.count_cons_self]
    omega
  | case6 cs hquote _ _ _ =>
    have hcount : cs.count '"' = 0 := List.count_eq_zero.mpr (by simpa using hquote)
    simp [hcount]
  | case7 c cs _ _ _ hc ih =>
    have hword : (cs.takeWhile isWordChar).count '"' = 0 := by
      rw [List.count_eq_zero]
      intro hm
      exact absurd (List.all_eq_true.mp List.all_takeWhile _ hm) (by decide)
    have hcount : (cs.dropWhile isWordChar).count '"' = cs.count '"' := by
      rw [← @List.takeWhile_append_dropWhile _ isWordChar cs, List.count_append, hword]
      simp
    rw [Option.map_eq_none_iff, ih, List.count_cons_of_ne hc, hcount]

theorem ofWord_ne_quoted (a b : Name) : ofWord a ≠ quoted b := by
  unfold ofWord
  split <;> exact nofun

/-- What stands between quotes stands in the line. -/
theorem subset_of_quoted_mem {line : List Char} {tokens : List Token} (h : scan line = some tokens)
    {a : Name} (ha : quoted a ∈ tokens) : a.toList ⊆ line := by
  fun_induction scan line generalizing tokens with
  | case1 =>
    obtain rfl := Option.some.inj h
    cases ha
  | case2 c cs _ ih => exact List.subset_cons_of_subset c (ih h ha)
  | case3 cs _ ih =>
    obtain ⟨rest, hrest, rfl⟩ := Option.map_eq_some_iff.mp h
    exact List.subset_cons_of_subset _ (ih hrest (by simpa using ha))
  | case4 cs _ _ ih =>
    obtain ⟨rest, hrest, rfl⟩ := Option.map_eq_some_iff.mp h
    exact List.subset_cons_of_subset _ (ih hrest (by simpa using ha))
  | case5 cs hquote _ _ _ ih =>
    obtain ⟨rest, hrest, rfl⟩ := Option.map_eq_some_iff.mp h
    apply List.subset_cons_of_subset
    rcases List.mem_cons.mp ha with heq | ha
    · rw [quoted.inj heq, String.toList_ofList]
      exact (List.takeWhile_prefix _).subset
    · have hbehind : behindQuote cs ⊆ cs :=
        ((List.drop_sublist 1 _).trans (List.dropWhile_sublist _)).subset
      exact List.Subset.trans (ih hrest ha) hbehind
  | case6 => cases h
  | case7 c cs _ _ _ _ ih =>
    obtain ⟨rest, hrest, rfl⟩ := Option.map_eq_some_iff.mp h
    apply List.subset_cons_of_subset
    rcases List.mem_cons.mp ha with heq | ha
    · exact absurd heq.symm (ofWord_ne_quoted _ _)
    · exact List.Subset.trans (ih hrest ha) (List.dropWhile_sublist _).subset

theorem eq_quoted_of_symbol? {t : Token} {a : Name} (h : t.symbol? = some (.terminal a)) :
    t = quoted a := by
  cases t with
  | quoted b =>
    simp only [symbol?] at h
    split at h
    · cases h
    · rw [Symbol.terminal.inj (Option.some.inj h)]
  | _ => cases h

theorem notMem_word {a : List Char} {c : Char} (ha : ∀ d ∈ a, endsWord d = false)
    (hc : endsWord c = true) : c ∉ a := by
  intro hm
  rw [ha c hm] at hc
  cases hc

theorem text_ne_nil {t : Token} (ht : t.IsWritable) : t.text ≠ [] := by
  cases t with
  | word a => exact ht.1
  | quoted a => exact List.cons_ne_nil _ _
  | _ => exact List.cons_ne_nil _ _

theorem getLast?_text {t : Token} (ht : t.IsWritable) : t.text.getLast? ≠ some '\r' := by
  intro hlast
  cases t with
  | word a => exact notMem_word ht.2.2 (by decide) (List.mem_of_getLast? hlast)
  | quoted a =>
    rw [text, ← List.cons_append, List.getLast?_concat] at hlast
    cases hlast
  | _ => cases hlast

/-- Spaced out tokens do not end in a carriage return. -/
theorem getLast?_spaced {tokens : List Token} (h : ∀ t ∈ tokens, t.IsWritable) :
    (spaced tokens).getLast? ≠ some '\r' := by
  induction tokens with
  | nil => exact nofun
  | cons t rest ih =>
    obtain ⟨ht, hrest⟩ := List.forall_mem_cons.mp h
    cases rest with
    | nil =>
      rw [spaced_singleton]
      exact getLast?_text ht
    | cons u rest =>
      have hne : spaced (u :: rest) ≠ [] := by
        have hu := text_ne_nil (hrest u List.mem_cons_self)
        cases rest with
        | nil => rwa [spaced_singleton]
        | cons v rest => simp [spaced_cons_cons]
      have hlast : (t.text ++ ' ' :: spaced (u :: rest)).getLast? =
          (spaced (u :: rest)).getLast? := by
        simp [List.getLast?_append, List.getLast?_cons, List.getLast?_eq_some_getLast hne]
      rw [spaced_cons_cons, hlast]
      exact ih hrest

theorem count_text {t : Token} (ht : t.IsWritable) : t.text.count '"' % 2 = 0 := by
  cases t with
  | word a =>
    have hcount : a.toList.count '"' = 0 :=
      List.count_eq_zero.mpr (notMem_word ht.2.2 (by decide))
    simp [text, hcount]
  | quoted a =>
    have hcount : a.toList.count '"' = 0 := List.count_eq_zero.mpr ht
    simp [text, hcount]
  | _ => rfl

/-- A line feed in a token stands behind an open quote. -/
theorem exists_open_quote_of_text {t : Token} (ht : t.IsWritable) (hm : '\n' ∈ t.text) :
    ∃ piece behind, t.text = piece ++ '\n' :: behind ∧ '\n' ∉ piece ∧
      piece.count '"' % 2 = 1 := by
  cases t with
  | word a => exact absurd hm (notMem_word ht.2.2 (by decide))
  | quoted a =>
    have hm : '\n' ∈ a.toList := by simpa [text] using hm
    obtain ⟨piece, behind, heq, hpiece⟩ := List.eq_append_cons_of_mem hm
    have hquote : '"' ∉ piece := fun h => ht (heq ▸ List.mem_append_left _ h)
    have hcount : piece.count '"' = 0 := List.count_eq_zero.mpr hquote
    have hmark : '\n' ∉ '"' :: piece := by simpa using hpiece
    exact ⟨'"' :: piece, behind ++ ['"'], by simp [text, heq], hmark, by simp [hcount]⟩
  | _ => exact absurd hm (by decide)

/-- The first line feed among spaced out tokens stands behind an open quote. -/
theorem exists_open_quote {tokens : List Token} (h : ∀ t ∈ tokens, t.IsWritable)
    (hm : '\n' ∈ spaced tokens) :
    ∃ piece behind, spaced tokens = piece ++ '\n' :: behind ∧ '\n' ∉ piece ∧
      piece.count '"' % 2 = 1 := by
  induction tokens with
  | nil => cases hm
  | cons t rest ih =>
    obtain ⟨ht, hrest⟩ := List.forall_mem_cons.mp h
    cases rest with
    | nil =>
      rw [spaced_singleton] at hm ⊢
      exact exists_open_quote_of_text ht hm
    | cons u rest =>
      rw [spaced_cons_cons] at hm ⊢
      by_cases hmt : '\n' ∈ t.text
      · obtain ⟨piece, behind, heq, hpiece, hcount⟩ := exists_open_quote_of_text ht hmt
        exact ⟨piece, behind ++ ' ' :: spaced (u :: rest), by simp [heq], hpiece, hcount⟩
      · have hmrest : '\n' ∈ spaced (u :: rest) := by simpa [hmt] using hm
        obtain ⟨piece, behind, heq, hpiece, hcount⟩ := ih hrest hmrest
        have hblank : (' ' :: piece).count '"' = piece.count '"' :=
          List.count_cons_of_ne (by decide)
        have hodd : (t.text ++ ' ' :: piece).count '"' % 2 = 1 := by
          have heven := count_text ht
          rw [List.count_append, hblank]
          omega
        exact ⟨t.text ++ ' ' :: piece, behind, by simp [heq], by simp [hmt, hpiece], hodd⟩

end Token

end ContextFree

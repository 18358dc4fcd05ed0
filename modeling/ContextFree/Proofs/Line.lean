import ContextFree.Bnf.Line
import Mathlib.Data.List.Basic
import Mathlib.Tactic.SplitIfs

/-! Texts that are put together from lines fall apart into these lines, no line holds a line feed,
and a file that holds a text has the lines of the text. -/

namespace ContextFree

namespace Line

/-- The text of lines that are all ended by a line feed. -/
def ended (lines : List (List Char)) : List Char := lines.flatMap (· ++ ['\n'])

theorem notMem_of_mem_splitOn {α : Type} [BEq α] [LawfulBEq α] {mark : α} {xs piece : List α}
    (h : piece ∈ xs.splitOn mark) : mark ∉ piece := by
  induction xs generalizing piece with
  | nil =>
    rw [List.splitOn_nil, List.mem_singleton] at h
    simp [h]
  | cons x rest ih =>
    rw [List.splitOn_cons_eq_if_modifyHead] at h
    obtain ⟨first, others, hsplit⟩ := List.exists_cons_of_ne_nil (List.splitOn_ne_nil mark rest)
    rw [hsplit] at h ih
    by_cases hx : x = mark
    · rw [if_pos (beq_iff_eq.mpr hx)] at h
      rcases List.mem_cons.mp h with rfl | h
      · exact List.not_mem_nil
      · exact ih h
    · rw [if_neg (by simpa using hx), List.modifyHead_cons] at h
      rcases List.mem_cons.mp h with rfl | h
      · rw [List.mem_cons]
        rintro (hm | hm)
        · exact hx hm.symm
        · exact ih List.mem_cons_self hm
      · exact ih (List.mem_cons_of_mem _ h)

theorem subset_of_mem_splitOn {α : Type} [BEq α] {mark : α} {xs piece : List α}
    (h : piece ∈ xs.splitOn mark) : piece ⊆ xs := by
  induction xs generalizing piece with
  | nil =>
    rw [List.splitOn_nil, List.mem_singleton] at h
    simp [h]
  | cons x rest ih =>
    rw [List.splitOn_cons_eq_if_modifyHead] at h
    split at h
    · rcases List.mem_cons.mp h with rfl | h
      · exact List.nil_subset _
      · exact List.subset_cons_of_subset x (ih h)
    · obtain ⟨first, others, hsplit⟩ := List.exists_cons_of_ne_nil (List.splitOn_ne_nil mark rest)
      rw [hsplit, List.modifyHead_cons] at h
      rw [hsplit] at ih
      rcases List.mem_cons.mp h with rfl | h
      · exact List.cons_subset_cons x (ih List.mem_cons_self)
      · exact List.subset_cons_of_subset x (ih (List.mem_cons_of_mem _ h))

/-- Splitting loses nothing but the marks. -/
theorem exists_mem_splitOn {α : Type} [BEq α] [LawfulBEq α] {mark x : α} (hx : x ≠ mark)
    {xs : List α} (h : x ∈ xs) : ∃ piece ∈ xs.splitOn mark, x ∈ piece := by
  induction xs with
  | nil => cases h
  | cons y rest ih =>
    obtain ⟨first, others, hsplit⟩ := List.exists_cons_of_ne_nil (List.splitOn_ne_nil mark rest)
    rw [List.splitOn_cons_eq_if_modifyHead, hsplit]
    rw [hsplit] at ih
    by_cases hy : y = mark
    · rw [if_pos (beq_iff_eq.mpr hy)]
      obtain ⟨piece, hpiece, hmem⟩ := ih ((List.mem_cons.mp h).resolve_left fun he => hx (he ▸ hy))
      exact ⟨piece, List.mem_cons_of_mem _ hpiece, hmem⟩
    · rw [if_neg (by simpa using hy), List.modifyHead_cons]
      rcases List.mem_cons.mp h with rfl | h
      · exact ⟨x :: first, List.mem_cons_self, List.mem_cons_self⟩
      · obtain ⟨piece, hpiece, hmem⟩ := ih h
        rcases List.mem_cons.mp hpiece with rfl | hpiece
        · exact ⟨y :: piece, List.mem_cons_self, List.mem_cons_of_mem _ hmem⟩
        · exact ⟨piece, List.mem_cons_of_mem _ hpiece, hmem⟩

theorem ended_cons_append (line : List Char) (rest : List (List Char)) (behind : List Char) :
    ended (line :: rest) ++ behind = line ++ '\n' :: (ended rest ++ behind) := by
  simp [ended]

theorem splitOn_ended_append {lines : List (List Char)} (behind : List Char)
    (h : ∀ line ∈ lines, '\n' ∉ line) :
    (ended lines ++ behind).splitOn '\n' = lines ++ behind.splitOn '\n' := by
  induction lines with
  | nil => rfl
  | cons line rest ih =>
    obtain ⟨hline, hrest⟩ := List.forall_mem_cons.mp h
    rw [ended_cons_append, List.splitOn_append_cons_self_of_not_mem hline, ih hrest]
    rfl

theorem mem_splitOn_ended_append (lines : List (List Char)) {behind piece : List Char}
    (h : piece ∈ (behind.splitOn '\n').dropLast) :
    piece ∈ ((ended lines ++ behind).splitOn '\n').dropLast := by
  induction lines with
  | nil => exact h
  | cons line rest ih =>
    have hne : (ended rest ++ behind).splitOn '\n' ≠ [] := List.splitOn_ne_nil _ _
    rw [ended_cons_append, List.splitOn_append_cons_self, List.dropLast_append_of_ne_nil hne]
    exact List.mem_append_right _ ih

/-- Lines that are all ended are read as they are, but for carriage returns at their ends. -/
theorem ofText_ended {text : String} {lines : List (List Char)} (htext : text.toList = ended lines)
    (h : ∀ line ∈ lines, '\n' ∉ line) : ofText text = lines.map dropReturn := by
  have hsplit : text.toList.splitOn '\n' = lines ++ [[]] := by
    simpa [htext] using splitOn_ended_append [] h
  simp [ofText, pieces, hsplit]

/-- What stands between ended lines and a line feed is a line. -/
theorem mem_ofText {text : String} {lines : List (List Char)} {piece behind : List Char}
    (htext : text.toList = ended lines ++ (piece ++ '\n' :: behind)) (h : '\n' ∉ piece) :
    dropReturn piece ∈ ofText text := by
  have hpiece : piece ∈ ((piece ++ '\n' :: behind).splitOn '\n').dropLast := by
    rw [List.splitOn_append_cons_self_of_not_mem h,
      List.dropLast_cons_of_ne_nil (List.splitOn_ne_nil _ _)]
    exact List.mem_cons_self
  have hmem := mem_splitOn_ended_append lines hpiece
  rw [← htext] at hmem
  exact List.mem_append_left _ (List.mem_map_of_mem hmem)

theorem isRule_cons {c : Char} (hblank : isBlank c = false) (hcomment : c ≠ ';')
    (cs : List Char) : isRule (c :: cs) = true := by
  simp [isRule, hblank, hcomment]

theorem dropReturn_eq_self {line : List Char} (h : line.getLast? ≠ some '\r') :
    dropReturn line = line := if_neg h

theorem dropReturn_cases (line : List Char) :
    dropReturn line = line ∨ line = dropReturn line ++ ['\r'] := by
  by_cases h : line.getLast? = some '\r'
  · obtain ⟨front, rfl⟩ := List.getLast?_eq_some_iff.mp h
    right
    rw [dropReturn, if_pos h, List.dropLast_concat]
  · exact .inl (dropReturn_eq_self h)

/-- Dropping the carriage return takes no rule away. -/
theorem isRule_dropReturn_cons {c : Char} (hblank : isBlank c = false) (hcomment : c ≠ ';')
    (cs : List Char) : isRule (dropReturn (c :: cs)) = true := by
  rcases dropReturn_cases (c :: cs) with h | h
  · rw [h]
    exact isRule_cons hblank hcomment cs
  · cases hline : dropReturn (c :: cs) with
    | nil =>
      rw [hline, List.nil_append] at h
      rw [(List.cons.inj h).1] at hblank
      cases hblank
    | cons d ds =>
      rw [hline, List.cons_append] at h
      rw [← (List.cons.inj h).1]
      exact isRule_cons hblank hcomment ds

theorem count_quote_dropReturn (line : List Char) :
    (dropReturn line).count '"' = line.count '"' := by
  rcases dropReturn_cases line with h | h
  · rw [h]
  · have hcount := congrArg (List.count '"') h
    rw [List.count_append] at hcount
    exact hcount.symm

theorem dropReturn_sublist (line : List Char) : (dropReturn line).Sublist line := by
  unfold dropReturn
  split
  · exact List.dropLast_sublist line
  · exact List.Sublist.refl line

theorem mem_pieces {α : Type} [BEq α] {mark : α} {xs piece : List α}
    (h : piece ∈ (pieces mark xs).1 ∨ piece = (pieces mark xs).2) : piece ∈ xs.splitOn mark := by
  rcases h with h | rfl
  · exact List.dropLast_subset _ h
  · have hne : xs.splitOn mark ≠ [] := List.splitOn_ne_nil mark xs
    simp [pieces, List.getLast?_eq_some_getLast hne]

theorem notMem_of_mem_ofText {text : String} {line : List Char} (h : line ∈ ofText text) :
    '\n' ∉ line := by
  rcases List.mem_append.mp h with h | h
  · obtain ⟨piece, hpiece, rfl⟩ := List.mem_map.mp h
    intro hm
    exact notMem_of_mem_splitOn (mem_pieces (.inl hpiece)) ((dropReturn_sublist piece).subset hm)
  · split at h
    · cases h
    · rw [List.mem_singleton.mp h]
      exact notMem_of_mem_splitOn (mem_pieces (.inr rfl))

/-- In UTF-8 a line feed is a byte of its own. -/
theorem mem_of_decode {bytes : List UInt8} {line : List Char} (h : decode bytes = some line)
    (hm : '\n' ∈ line) : 0x0A ∈ bytes := by
  obtain ⟨text, htext, rfl⟩ := Option.map_eq_some_iff.mp h
  have hbytes : text.toByteArray = ⟨bytes.toArray⟩ := by
    unfold String.fromUTF8? at htext
    split at htext
    · rw [← Option.some.inj htext]
      rfl
    · cases htext
  rw [← String.utf8Encode_toList, List.utf8Encode] at hbytes
  have hlist : text.toList.flatMap String.utf8EncodeChar = bytes := by
    simpa using congrArg (fun b : ByteArray => b.data.toList) hbytes
  rw [← hlist]
  exact List.mem_flatMap.mpr ⟨'\n', hm, by decide⟩

theorem notMem_of_mem_ofBytes {bytes : ByteArray} {line : List Char}
    (h : some line ∈ ofBytes bytes) : '\n' ∉ line := by
  rcases List.mem_append.mp h with h | h
  · obtain ⟨piece, hpiece, heq⟩ := List.mem_map.mp h
    obtain ⟨decoded, hdecode, rfl⟩ := Option.map_eq_some_iff.mp heq
    intro hm
    have hbyte := mem_of_decode hdecode ((dropReturn_sublist decoded).subset hm)
    exact notMem_of_mem_splitOn (mem_pieces (.inl hpiece)) hbyte
  · split at h
    · cases h
    · intro hm
      have hbyte := mem_of_decode (List.mem_singleton.mp h).symm hm
      exact notMem_of_mem_splitOn (mem_pieces (.inr rfl)) hbyte

/-- The bytes of a line in UTF-8. -/
def encode (line : List Char) : List UInt8 := line.flatMap String.utf8EncodeChar

/-- No other character has the byte of a line feed. -/
theorem lineFeed_notMem_utf8EncodeChar {c : Char} (h : c ≠ '\n') :
    0x0A ∉ String.utf8EncodeChar c := by
  have hne : c.val.toNat ≠ 10 := fun heq => h (Char.ext (UInt32.toNat_inj.mp heq))
  have hbyte {n : Nat} (hn : n % 256 ≠ 10) : (0x0A : UInt8) ≠ UInt8.ofNat n := by
    intro heq
    exact hn (by simpa using (congrArg UInt8.toNat heq).symm)
  intro hm
  simp only [String.utf8EncodeChar] at hm
  split_ifs at hm
  · exact hbyte (by omega) (List.mem_singleton.mp hm)
  · simp only [List.mem_cons, List.not_mem_nil, or_false] at hm
    rcases hm with hm | hm <;> exact hbyte (by omega) hm
  · simp only [List.mem_cons, List.not_mem_nil, or_false] at hm
    rcases hm with hm | hm | hm <;> exact hbyte (by omega) hm
  · simp only [List.mem_cons, List.not_mem_nil, or_false] at hm
    rcases hm with hm | hm | hm | hm <;> exact hbyte (by omega) hm

theorem splitOn_append_of_notMem {α : Type} [BEq α] [LawfulBEq α] {mark : α} {xs : List α}
    (h : mark ∉ xs) (ys : List α) :
    (xs ++ ys).splitOn mark = (ys.splitOn mark).modifyHead (xs ++ ·) := by
  induction xs with
  | nil => exact (congrFun List.modifyHead_id _).symm
  | cons x rest ih =>
    rw [List.mem_cons, not_or] at h
    have hx : (x == mark) = false := by simpa using Ne.symm h.1
    rw [List.cons_append, List.splitOn_cons_eq_if_modifyHead, if_neg (by simp [hx]), ih h.2,
      List.modifyHead_modifyHead]
    rfl

theorem splitOn_encode (cs : List Char) :
    (encode cs).splitOn 0x0A = (cs.splitOn '\n').map encode := by
  induction cs with
  | nil => rfl
  | cons c rest ih =>
    obtain ⟨first, others, hsplit⟩ := List.exists_cons_of_ne_nil (List.splitOn_ne_nil '\n' rest)
    rw [hsplit] at ih
    rw [List.splitOn_cons_eq_if_modifyHead, hsplit, encode, List.flatMap_cons, ← encode]
    by_cases hc : c = '\n'
    · subst hc
      have hbyte : String.utf8EncodeChar '\n' = [0x0A] := by decide
      rw [hbyte, List.singleton_append, List.splitOn_cons_eq_if_modifyHead, ih]
      simp [encode]
    · rw [splitOn_append_of_notMem (lineFeed_notMem_utf8EncodeChar hc), ih,
        if_neg (by simpa using hc)]
      simp [encode]

theorem decode_encode (cs : List Char) : decode (encode cs) = some cs := by
  have hbytes : (⟨(encode cs).toArray⟩ : ByteArray) = (String.ofList cs).toByteArray := by
    apply ByteArray.ext
    rw [String.toByteArray_ofList, List.utf8Encode]
    simp [encode]
  have htext : String.fromUTF8 (String.ofList cs).toByteArray (String.ofList cs).isValidUTF8 =
      String.ofList cs := rfl
  rw [decode, hbytes, String.fromUTF8?, dif_pos (String.ofList cs).isValidUTF8, htext,
    Option.map_some, String.toList_ofList]

theorem encode_eq_nil_iff {cs : List Char} : encode cs = [] ↔ cs = [] := by
  constructor
  · intro h
    exact Option.some.inj ((decode_encode cs).symm.trans (by rw [h]; exact decode_encode []))
  · rintro rfl
    rfl

/-- A file that holds a text has the lines of the text. -/
theorem ofBytes_toUTF8 (text : String) : ofBytes text.toUTF8 = (ofText text).map some := by
  have hbytes : text.toUTF8.data.toList = encode text.toList := by
    rw [String.toUTF8_eq_toByteArray, ← String.utf8Encode_toList, List.utf8Encode]
    simp [encode]
  obtain ⟨ended, last, hsplit⟩ := List.eq_nil_or_concat' (text.toList.splitOn '\n') |>.resolve_left
    (List.splitOn_ne_nil _ _)
  have hended : (ended.map encode).map (fun line => (decode line).map dropReturn) =
      (ended.map dropReturn).map some := by
    simp [decode_encode]
  rw [ofBytes, ofText, hbytes]
  simp only [pieces, splitOn_encode, hsplit, List.map_append, List.map_singleton,
    List.dropLast_concat, List.getLast?_concat, Option.getD_some, hended, encode_eq_nil_iff,
    decode_encode]
  split <;> rfl

end Line

end ContextFree

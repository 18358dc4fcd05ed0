import ContextFree.Bnf.Name
import ContextFree.Grammar.FreshName
import Mathlib.Data.List.Nodup
import Mathlib.Data.List.Perm.Subperm

/-! The spare names can all be written in BNF, and no two of them are equal. -/

namespace ContextFree

theorem endsWord_of_isDigit {c : Char} (h : c.isDigit = true) : endsWord c = false := by
  simp only [Char.isDigit, Bool.and_eq_true, decide_eq_true_eq, ge_iff_le] at h
  have hlow : 48 ≤ c.toNat := h.1
  have hhigh : c.toNat ≤ 57 := h.2
  have hne (d : Char) (hd : d.toNat < 48 ∨ 57 < d.toNat) : c ≠ d := by
    rintro rfl
    omega
  have hblank : isBlank c = false := by
    simp only [isBlank, blankRanges, List.any_cons, List.any_nil, Bool.or_false,
      Bool.or_eq_false_iff, Bool.and_eq_false_iff, decide_eq_false_iff_not]
    omega
  simp [endsWord, hblank, hne '=' (by decide), hne '|' (by decide), hne '"' (by decide)]

theorem nameLetters_bare {c : Char} (h : c ∈ nameLetters) :
    c ≠ ';' ∧ c ≠ 'ε' ∧ endsWord c = false := by
  have hall : nameLetters.all (fun c => c != ';' && c != 'ε' && !endsWord c) = true := by
    decide +kernel
  simpa [and_assoc] using List.all_eq_true.mp hall c h

/-- The letters stand in the order of their code points. -/
theorem nodup_nameLetters : nameLetters.Nodup := by
  have hchain : (nameLetters.map Char.toNat).IsChain (· < ·) := by decide +kernel
  have hpairwise := List.isChain_iff_pairwise.mp hchain
  exact List.Nodup.of_map Char.toNat (hpairwise.imp Nat.ne_of_lt)

/-- A spare name is a letter, or a letter with the digits of a number behind it. -/
theorem mem_spareNames {a : Name} :
    a ∈ spareNames ↔
      ∃ c ∈ nameLetters, a.toList = [c] ∨ ∃ i < 100, a.toList = c :: Nat.toDigits 10 i := by
  have hletter (c : Char) : String.singleton c = a ↔ a.toList = [c] := by
    rw [← String.toList_inj, String.toList_singleton, eq_comm]
  have hnumber (c : Char) (i : Nat) :
      String.singleton c ++ toString i = a ↔ a.toList = c :: Nat.toDigits 10 i := by
    rw [← String.toList_inj, eq_comm]
    simp
  simp only [spareNames, List.mem_append, List.mem_map, List.mem_flatMap, List.mem_range, hletter,
    hnumber]
  constructor
  · rintro (⟨c, hc, h⟩ | ⟨c, hc, h⟩)
    · exact ⟨c, hc, .inl h⟩
    · exact ⟨c, hc, .inr h⟩
  · intro h'
    obtain ⟨c, hc, h | h⟩ := h'
    · exact .inl ⟨c, hc, h⟩
    · exact .inr ⟨c, hc, h⟩

theorem isBareName_of_mem_spareNames {a : Name} (h : a ∈ spareNames) : isBareName a = true := by
  obtain ⟨c, hc, hlist⟩ := mem_spareNames.mp h
  obtain ⟨hcomment, hepsilon, hend⟩ := nameLetters_bare hc
  rw [isBareName_iff]
  rcases hlist with hlist | ⟨i, _, hlist⟩
  · simp [hlist, hcomment, hepsilon, hend]
  · have hdigits : ∀ d ∈ Nat.toDigits 10 i, endsWord d = false := fun d hd =>
      endsWord_of_isDigit (Nat.isDigit_of_mem_toDigits (by decide) (by decide) hd)
    simpa [hlist, hcomment, hepsilon, hend] using hdigits

theorem toString_injective {i j : Nat} (h : toString i = toString j) : i = j := by
  have hdigits := congrArg (fun s : String => Nat.ofDigitChars 10 s.toList 0) h
  simpa [Nat.toString_eq_ofList_toDigits] using hdigits

theorem nodup_spareNames : spareNames.Nodup := by
  have hletters : (nameLetters.map String.singleton).Nodup := by
    apply nodup_nameLetters.map
    intro c d h
    simpa using congrArg String.toList h
  have hnumbers (c : Char) :
      ((List.range 100).map fun i => String.singleton c ++ toString i).Nodup := by
    apply List.nodup_range.map
    intro i j h
    apply toString_injective
    simpa [← String.toList_inj] using h
  rw [spareNames, List.nodup_append, List.nodup_flatMap]
  refine ⟨hletters, ⟨fun c _ => hnumbers c, ?_⟩, ?_⟩
  · apply nodup_nameLetters.imp
    intro c d hne a hc hd
    obtain ⟨i, _, rfl⟩ := List.mem_map.mp hc
    obtain ⟨j, _, h⟩ := List.mem_map.mp hd
    have hlist := congrArg String.toList h
    simp only [String.toList_append, String.toList_singleton, List.singleton_append] at hlist
    exact hne (List.head_eq_of_cons_eq hlist).symm
  · intro a ha b hb hab
    obtain ⟨c, _, rfl⟩ := List.mem_map.mp ha
    obtain ⟨d, _, hb⟩ := List.mem_flatMap.mp hb
    obtain ⟨i, _, rfl⟩ := List.mem_map.mp hb
    have hlist := congrArg String.toList hab
    simp [Nat.toDigits_ne_nil.symm] at hlist

theorem length_spareNames : spareNames.length = 5959 := by
  have hletters : nameLetters.length = 59 := by decide +kernel
  simp [spareNames, hletters]

namespace Grammar

theorem mem_freeNames {g : Grammar} {a : Name} :
    a ∈ g.freeNames ↔ a ∈ spareNames ∧ a ∉ g.nonterminals ∧ a ∉ g.terminals := by
  simp [freeNames, names]

theorem nodup_freeNames (g : Grammar) : g.freeNames.Nodup :=
  nodup_spareNames.sublist List.filter_sublist

/-- A grammar's own names are all that the free ones may lack. -/
theorem length_spareNames_le (g : Grammar) :
    spareNames.length ≤ g.freeNames.length + g.names.length := by
  have htaken : (spareNames.filter (g.names.contains ·)).length ≤ g.names.length := by
    refine (List.Nodup.subperm (nodup_spareNames.filter _) fun a ha => ?_).length_le
    simpa using (List.mem_filter.mp ha).2
  rw [List.length_eq_length_filter_add (g.names.contains ·)]
  simp only [freeNames]
  omega

end Grammar

end ContextFree

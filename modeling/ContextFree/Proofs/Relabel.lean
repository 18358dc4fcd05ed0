import ContextFree.Grammar.Relabel
import ContextFree.Proofs.Demand

/-!
Cutting grammars into pairs that differ in order only. The helpers take the same names, but a helper
may stand for one word here and for another one there. A permutation of the names makes up for that.
-/

namespace ContextFree

open Grammar

namespace Helpers

variable {helpers helpers' : Helpers} {f : Name → Name}

/-- Under other names the words that helpers are wanted for, the changed alternatives and those of
the helpers are what they were, if the helpers for the words have the other names. -/
structure Relabels (wanted : Alternative → List (List Symbol))
    (answer : Helpers → List Symbol → Option Name)
    (change : Helpers → Alternative → Option Alternative) : Prop where
  mem_wanted_relabel {f : Name → Name} {alternative : Alternative} {word : List Symbol} :
    word ∈ wanted (Alternative.relabel f alternative) ↔
      ∃ old ∈ wanted alternative, Alternative.relabel f old = word
  change_relabel {helpers helpers' : Helpers} {f : Name → Name}
    {alternative changed : Alternative} :
    (∀ word ∈ wanted alternative, ∀ a, answer helpers word = some a →
      answer helpers' (Alternative.relabel f word) = some (f a)) →
    change helpers alternative = some changed →
    change helpers' (Alternative.relabel f alternative) = some (Alternative.relabel f changed)
  exists_key {helpers helpers' : Helpers} {f : Name → Name} {alternative : Alternative}
    {word : List Symbol} {a : Name} :
    (∀ word ∈ wanted alternative, ∀ a, answer helpers word = some a →
      answer helpers' (Alternative.relabel f word) = some (f a)) →
    word ∈ wanted alternative → answer helpers word = some a →
    ∃ key, (key, a) ∈ helpers.made ∧ (Alternative.relabel f key, f a) ∈ helpers'.made

theorem mem_beginnings_relabel {alternative : Alternative} {word : List Symbol} :
    word ∈ beginnings (Alternative.relabel f alternative) ↔
      ∃ old ∈ beginnings alternative, Alternative.relabel f old = word := by
  simp only [mem_beginnings, Alternative.length_relabel]
  constructor
  · rintro ⟨hbegins, hlong, hlength⟩
    obtain ⟨old, hold, rfl⟩ := List.prefix_map_iff.mp hbegins
    exact ⟨old, ⟨hold, by simpa using hlong, by simpa using hlength⟩, rfl⟩
  · rintro ⟨old, ⟨hbegins, hlong, hlength⟩, rfl⟩
    exact ⟨hbegins.map _, by simpa using hlong, by simpa using hlength⟩

theorem cut_relabel {alternative changed : Alternative}
    (hanswer : ∀ word ∈ beginnings alternative, ∀ a, helpers.pairFor word = some a →
      helpers'.pairFor (Alternative.relabel f word) = some (f a))
    (h : helpers.cut alternative = some changed) :
    helpers'.cut (Alternative.relabel f alternative) = some (Alternative.relabel f changed) := by
  rcases length_cases alternative with hshort | ⟨longest, last, rfl, hlong, hmem⟩
  · rw [cut_of_length hshort] at h
    obtain rfl := Option.some.inj h
    exact cut_of_length (by simpa using hshort)
  · rw [cut_concat hlong] at h
    obtain ⟨a, ha, rfl⟩ := Option.map_eq_some_iff.mp h
    have hlong' : 2 ≤ (Alternative.relabel f longest).length := by simpa using hlong
    rw [Alternative.relabel_append, Alternative.relabel_cons, Alternative.relabel_nil,
      cut_concat hlong', hanswer longest hmem a ha]
    rfl

theorem relabels_cut : Relabels beginnings pairFor cut where
  mem_wanted_relabel := mem_beginnings_relabel
  change_relabel := cut_relabel
  exists_key {helpers helpers' f alternative word a} hanswer hword ha := by
    -- the alternative of a helper is its word, cut
    obtain ⟨key, hkey, hentry⟩ := exists_key_of_pairFor ha
    obtain ⟨key', hkey', hentry'⟩ := exists_key_of_pairFor (hanswer word hword a ha)
    have hcut : helpers'.cut (Alternative.relabel f word) = some (Alternative.relabel f key) :=
      cut_relabel (fun before hbefore => hanswer before (beginnings_trans hbefore hword)) hkey
    obtain rfl := Option.some.inj (hkey'.symm.trans hcut)
    exact ⟨key, hentry, hentry'⟩

theorem mem_terminalWords_relabel {alternative : Alternative} {word : List Symbol} :
    word ∈ terminalWords (Alternative.relabel f alternative) ↔
      ∃ old ∈ terminalWords alternative, Alternative.relabel f old = word := by
  simp only [mem_terminalWords, Alternative.terminal_mem_relabel_iff, Alternative.length_relabel]
  constructor
  · rintro ⟨hlength, a, ha, rfl⟩
    exact ⟨_, ⟨hlength, a, ha, rfl⟩, rfl⟩
  · rintro ⟨_, ⟨hlength, a, ha, rfl⟩, rfl⟩
    exact ⟨hlength, a, ha, rfl⟩

theorem relabels_wrap : Relabels terminalWords wrapperFor wrap where
  mem_wanted_relabel := mem_terminalWords_relabel
  change_relabel {helpers helpers' f alternative changed} hanswer h := by
    by_cases hlength : alternative.length = 2
    · have hsymbol {s t : Symbol} (hs : s ∈ alternative) (hst : helpers.wrapSymbol s = some t) :
          helpers'.wrapSymbol (s.relabel f) = some (t.relabel f) := by
        cases s with
        | nonterminal a =>
          obtain rfl := Option.some.inj hst
          rfl
        | terminal a =>
          obtain ⟨b, hb, rfl⟩ := Option.map_eq_some_iff.mp hst
          have hword := mem_terminalWords.mpr ⟨hlength, a, hs, rfl⟩
          exact Option.map_eq_some_iff.mpr ⟨f b, hanswer _ hword b hb, rfl⟩
      obtain ⟨first, second, rfl⟩ := List.length_eq_two.mp hlength
      obtain ⟨s, t, hs, ht, rfl⟩ := wrap_pair_iff.mp h
      exact wrap_pair_iff.mpr ⟨_, _, hsymbol (by simp) hs, hsymbol (by simp) ht, rfl⟩
    · rw [wrap_of_length hlength] at h
      obtain rfl := Option.some.inj h
      exact wrap_of_length (by simpa using hlength)
  exists_key {helpers helpers' f alternative word a} hanswer hword ha := by
    have ha' := hanswer word hword a ha
    obtain ⟨b, rfl, hb⟩ := wrapperFor_eq_some_iff.mp ha
    exact ⟨_, mem_made_of_name? hb, mem_made_of_name? ha'⟩

end Helpers

end ContextFree

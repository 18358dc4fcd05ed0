import ContextFree.Proofs.HelperCount

/-!
What the helpers mean once both rounds are through. Cutting into pairs keeps the sentences of every
word of the grammar's own symbols, whatever the grammar contains besides; and each helper has the
sentences of the word that it stands for.
-/

namespace ContextFree

open Grammar

namespace Grammar

variable {g : Grammar} {names : List Name} {word : List Symbol} {a : Name}

/-- A round that goes through keeps the sentences of words of the grammar's own symbols. -/
theorem derives_round_iff {Key : Alternative → Prop} {make : Helpers → Alternative → Helpers}
    {change : Helpers → Alternative → Option Alternative} (hf : Helpers.Fits Key make change)
    (hg : g.WellFormed) (hround : (g.round make change).result = .ok names)
    (hword : ∀ s ∈ word, g.HasSymbol s) {w : List Name} :
    Derives (g.round make change).grammar word w ↔ Derives g word w := by
  refine derives_iff_of_forall₂ (List.forall₂_same.mpr fun s hs w => ?_)
  cases s with
  | terminal t => rw [derives_terminal_iff, derives_terminal_iff]
  | nonterminal b => exact generates_round_iff hf hg hround (hword _ hs)

/-- The helper that stands for a word: one of the second round if the word is a terminal, and else
one of the first round. -/
def helperFor (g : Grammar) (word : List Symbol) : Option Name :=
  (g.pairs.pairFor word).or (g.wrappers.wrapperFor word)

theorem helperFor_eq_some_iff :
    g.helperFor word = some a ↔
      g.pairs.pairFor word = some a ∨
        ∃ t, word = [.terminal t] ∧ g.wrappers.name? [.terminal t] = some a := by
  rw [helperFor, Option.or_eq_some_iff, Helpers.wrapperFor_eq_some_iff]
  refine or_congr_right (and_iff_right_of_imp ?_)
  rintro ⟨t, rfl, _⟩
  rfl

theorem mem_helperWords_iff :
    word ∈ g.helperWords ↔
      word ∈ g.demand Helpers.beginnings ∨ ∃ t ∈ g.pairedTerminals, word = [.terminal t] := by
  simp only [helperWords, List.mem_append, List.mem_map, eq_comm]

theorem hasSymbol_of_mem_helperWords (hg : g.WellFormed) (hword : word ∈ g.helperWords) :
    ∀ s ∈ word, g.HasSymbol s := by
  rcases mem_helperWords_iff.mp hword with hword | ⟨t, ht, rfl⟩
  · exact hasSymbol_of_mem_demand Helpers.serves_cut hg hword
  · obtain ⟨b, alternative, hmem, _, ht⟩ := (mem_pairedTerminals_iff hg).mp ht
    intro s hs
    rw [List.mem_singleton.mp hs]
    exact hg.hasSymbol_of_mem hmem ht

section

variable (hg : g.WellFormed) (h : g.binarize.result = .ok names)
include hg h

/-- The names that cutting answers are those of the helpers for the words. -/
theorem mem_names_binarize_iff :
    a ∈ names ↔ ∃ word ∈ g.helperWords, g.helperFor word = some a := by
  obtain ⟨pairs, wrappers, hpairs, hwrappers, rfl, _⟩ := binarize_eq_ok h
  obtain rfl : pairs = g.pairs.names := (result_round_eq_ok_iff.mp hpairs).2
  obtain rfl : wrappers = g.wrappers.names := (result_round_eq_ok_iff.mp hwrappers).2
  rw [List.mem_append]
  constructor
  · rintro (ha | ha)
    · obtain ⟨word, hword, ha⟩ :=
        (mem_names_gather_iff Helpers.serves_cut Helpers.linked_cut).mp ha
      exact ⟨word, mem_helperWords_iff.mpr (.inl hword), helperFor_eq_some_iff.mpr (.inl ha)⟩
    · obtain ⟨word, hword, ha⟩ :=
        (mem_names_gather_iff Helpers.serves_wrap Helpers.linked_wrap).mp ha
      have hterminal := (mem_demand_terminalWords_cutLong_iff hg hpairs).mp hword
      exact ⟨word, mem_helperWords_iff.mpr (.inr hterminal),
        helperFor_eq_some_iff.mpr (.inr (Helpers.wrapperFor_eq_some_iff.mp ha))⟩
  · rintro ⟨word, _, ha⟩
    exact (helperFor_eq_some_iff.mp ha).imp Helpers.mem_names_of_pairFor
      fun ⟨_, _, ha⟩ => Helpers.mem_names_of_name? ha

/-- When both rounds are through, every word has its helper. -/
theorem exists_helperFor (hword : word ∈ g.helperWords) :
    ∃ a, g.helperFor word = some a := by
  obtain ⟨_, _, hpairs, hwrappers, _, _⟩ := binarize_eq_ok h
  rcases mem_helperWords_iff.mp hword with hword | hword
  · have hanswered := (complete_iff_answered Helpers.serves_cut).mp
      (result_round_eq_ok_iff.mp hpairs).1 word hword
    obtain ⟨a, ha⟩ := Option.isSome_iff_exists.mp hanswered
    exact ⟨a, helperFor_eq_some_iff.mpr (.inl ha)⟩
  · have hanswered := (complete_iff_answered Helpers.serves_wrap).mp
      (result_round_eq_ok_iff.mp hwrappers).1 word
      ((mem_demand_terminalWords_cutLong_iff hg hpairs).mpr hword)
    obtain ⟨a, ha⟩ := Option.isSome_iff_exists.mp hanswered
    exact ⟨a, helperFor_eq_some_iff.mpr (.inr (Helpers.wrapperFor_eq_some_iff.mp ha))⟩

/-- The only alternative of a helper is what both rounds make of its word. -/
theorem mem_alternatives_helperFor_iff (ha : g.helperFor word = some a) {final : Alternative} :
    final ∈ g.binarize.grammar.alternatives a ↔ g.cutAndWrap word = some final := by
  rcases helperFor_eq_some_iff.mp ha with ha | ⟨t, rfl, ha⟩
  · exact mem_alternatives_pair_iff hg h ha
  · rw [mem_alternatives_wrapper_iff hg h ha, cutAndWrap_of_length (by simp), Option.some_inj,
      eq_comm]

/-- Each helper has the sentences of the word that it stands for. -/
theorem generates_helperFor_iff (hword : ∀ s ∈ word, g.HasSymbol s)
    (ha : g.helperFor word = some a) {w : List Name} :
    g.binarize.grammar.Generates a w ↔ Derives g word w := by
  rcases helperFor_eq_some_iff.mp ha with ha | ⟨t, rfl, ha⟩
  · obtain ⟨_, _, hpairs, hwrappers, _, heq⟩ := binarize_eq_ok h
    have ha' : a ∈ g.cutLong.grammar.nonterminals :=
      mem_nonterminals_round.mpr (.inr (Helpers.mem_names_of_pairFor ha))
    obtain ⟨key, hkey, hentry⟩ := Helpers.exists_key_of_pairFor ha
    calc g.binarize.grammar.Generates a w
      _ ↔ g.cutLong.grammar.Generates a w :=
        heq ▸ generates_round_iff Helpers.fits_wrap hg.cutLong hwrappers ha'
      _ ↔ Derives g.cutLong.grammar key w := generates_helper_iff Helpers.fits_cut hg hentry
      _ ↔ Derives g.cutLong.grammar word w :=
        Helpers.fits_cut.derives hkey (standFor_round Helpers.fits_cut hg) w
      _ ↔ Derives g word w := derives_round_iff Helpers.fits_cut hg hpairs hword
  · rw [generates_iff]
    simp only [mem_alternatives_wrapper_iff hg h ha, exists_eq_left, derives_terminal_iff]

/-- Cutting into pairs keeps the sentences of every nonterminal that was there, whatever the grammar
contains. The names that it adds say nothing new: each has the sentences of a word of the grammar
that wanted a helper, and each of these words has such a name. -/
theorem binarize_keeps_sentences :
    (∀ a ∈ g.nonterminals, ∀ w, g.binarize.grammar.Generates a w ↔ g.Generates a w) ∧
    (∀ a ∈ names, ∃ word ∈ g.helperWords, ∀ w,
      g.binarize.grammar.Generates a w ↔ Derives g word w) ∧
    ∀ word ∈ g.helperWords, ∃ a ∈ names, ∀ w,
      g.binarize.grammar.Generates a w ↔ Derives g word w := by
  refine ⟨fun a ha w => generates_binarize_iff hg h ha, fun a ha => ?_, fun word hword => ?_⟩
  · obtain ⟨word, hword, ha⟩ := (mem_names_binarize_iff hg h).mp ha
    have hknown := hasSymbol_of_mem_helperWords hg hword
    exact ⟨word, hword, fun w => generates_helperFor_iff hg h hknown ha⟩
  · obtain ⟨a, ha⟩ := exists_helperFor hg h hword
    have hknown := hasSymbol_of_mem_helperWords hg hword
    exact ⟨a, (mem_names_binarize_iff hg h).mpr ⟨word, hword, ha⟩,
      fun w => generates_helperFor_iff hg h hknown ha⟩

end

theorem mixed_binarize_result : mixed.binarize.result = .ok ["0", "1", "2"] := by rfl

/-- In `mixed` the start symbol has an empty alternative, `A` is a renaming of it, `N` has no
sentences and `U` is not reached. -/
theorem binarize_mixed_keeps_sentences :
    mixed.WellFormed ∧ mixed.binarize.result = .ok ["0", "1", "2"] ∧
      (∀ a ∈ ["S", "A", "N", "U"], ∀ w,
        mixed.binarize.grammar.Generates a w ↔ mixed.Generates a w) ∧
      ∃ a ∈ ["0", "1", "2"], ∀ w, mixed.binarize.grammar.Generates a w ↔
        Derives mixed [.nonterminal "A", .terminal "b"] w := by
  obtain ⟨hkept, _, hhelpers⟩ :=
    binarize_keeps_sentences mixed_built.wellFormed mixed_binarize_result
  exact ⟨mixed_built.wellFormed, mixed_binarize_result, hkept, hhelpers _ (by decide)⟩

end Grammar

end ContextFree

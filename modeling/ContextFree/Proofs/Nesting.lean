import ContextFree.Grammar.NestedTree
import ContextFree.Proofs.HelperWords

/-!
How deep the derivations of a grammar become when its alternatives are cut into pairs. The helpers
of a long alternative hang below each other, each for a beginning that is one symbol shorter, so the
alternative is nested; and terminals in pairs hang below helpers of their own.
-/

namespace ContextFree

namespace Grammar

variable {g : Grammar} {names : List Name}

/-- The helpers of the first round. -/
def pairs (g : Grammar) : Helpers := g.gather Helpers.makeForLong

/-- The helpers of the second round, which starts from what the first one leaves. -/
def wrappers (g : Grammar) : Helpers := g.cutLong.grammar.gather Helpers.makeForPair

/-- What both rounds make of an alternative. -/
def cutAndWrap (g : Grammar) (alternative : Alternative) : Option Alternative :=
  (g.pairs.cut alternative).bind g.wrappers.wrap

theorem cutAndWrap_of_length {alternative : Alternative} (h : alternative.length < 2) :
    g.cutAndWrap alternative = some alternative := by
  rw [cutAndWrap, Helpers.cut_of_length (by omega), Option.bind_some,
    Helpers.wrap_of_length (by omega)]

theorem cutAndWrap_pair {first second : Symbol} :
    g.cutAndWrap [first, second] = g.wrappers.wrap [first, second] := by
  rw [cutAndWrap, Helpers.cut_of_length (by simp), Option.bind_some]

theorem cutAndWrap_concat_iff {word : List Symbol} {last : Symbol} {final : Alternative}
    (h : 2 ≤ word.length) :
    g.cutAndWrap (word ++ [last]) = some final ↔
      ∃ b t, g.pairs.pairFor word = some b ∧ g.wrappers.wrapSymbol last = some t ∧
        final = [.nonterminal b, t] := by
  rw [cutAndWrap, Helpers.cut_concat h]
  cases hpair : g.pairs.pairFor word with
  | none => simp
  | some b => simp [Helpers.wrap_pair_iff, Helpers.wrapSymbol]

section

variable (hg : g.WellFormed) (h : g.binarize.result = .ok names)
include hg h

theorem mem_alternatives_binarize_iff {a : Name} (ha : a ∈ g.nonterminals) {final : Alternative} :
    final ∈ g.binarize.grammar.alternatives a ↔
      ∃ alternative ∈ g.alternatives a, g.cutAndWrap alternative = some final := by
  obtain ⟨_, _, hpairs, hwrappers, _, heq⟩ := binarize_eq_ok h
  have ha' : a ∈ g.cutLong.grammar.nonterminals := mem_nonterminals_round.mpr (.inl ha)
  have hinner (middle : Alternative) : middle ∈ g.cutLong.grammar.alternatives a ↔
      ∃ alternative ∈ g.alternatives a, g.pairs.cut alternative = some middle :=
    mem_alternatives_round_of_mem Helpers.fits_cut hg hpairs ha
  rw [heq, wrapTerminals, mem_alternatives_round_of_mem Helpers.fits_wrap hg.cutLong hwrappers ha']
  simp only [hinner, cutAndWrap, Option.bind_eq_some_iff]
  constructor
  · rintro ⟨middle, ⟨alternative, hmem, hchange⟩, hwrap⟩
    exact ⟨alternative, hmem, middle, hchange, hwrap⟩
  · rintro ⟨alternative, hmem, middle, hchange, hwrap⟩
    exact ⟨middle, ⟨alternative, hmem, hchange⟩, hwrap⟩

/-- A helper of the first round has the word that it stands for, changed as any alternative. -/
theorem mem_alternatives_pair_iff {word : List Symbol} {b : Name}
    (hb : g.pairs.pairFor word = some b) {final : Alternative} :
    final ∈ g.binarize.grammar.alternatives b ↔ g.cutAndWrap word = some final := by
  obtain ⟨_, _, hpairs, hwrappers, _, heq⟩ := binarize_eq_ok h
  have hb' : b ∈ g.cutLong.grammar.nonterminals :=
    mem_nonterminals_round.mpr (.inr (Helpers.mem_names_of_pairFor hb))
  obtain ⟨key, hkey, hentry⟩ := Helpers.exists_key_of_pairFor hb
  have hinner (middle : Alternative) :
      middle ∈ g.cutLong.grammar.alternatives b ↔ middle = key :=
    mem_alternatives_round_of_made Helpers.fits_cut hg hpairs hentry
  rw [heq, wrapTerminals, mem_alternatives_round_of_mem Helpers.fits_wrap hg.cutLong hwrappers hb']
  simp only [hinner, cutAndWrap, hkey, Option.bind_some, exists_eq_left]
  rfl

theorem exists_cutAndWrap {a : Name} {alternative : Alternative}
    (ha : alternative ∈ g.alternatives a) : ∃ final, g.cutAndWrap alternative = some final := by
  obtain ⟨_, _, hpairs, hwrappers, _, _⟩ := binarize_eq_ok h
  obtain ⟨middle, hmiddle, hchange⟩ := exists_mem_changed Helpers.fits_cut hg hpairs ha
  obtain ⟨final, _, hwrap⟩ := exists_mem_changed Helpers.fits_wrap hg.cutLong hwrappers hmiddle
  exact ⟨final, Option.bind_eq_some_iff.mpr ⟨middle, hchange, hwrap⟩⟩

theorem exists_cutAndWrap_of_pairFor {word : List Symbol} {b : Name}
    (hb : g.pairs.pairFor word = some b) : ∃ final, g.cutAndWrap word = some final := by
  obtain ⟨_, _, hpairs, hwrappers, _, _⟩ := binarize_eq_ok h
  obtain ⟨key, hkey, hentry⟩ := Helpers.exists_key_of_pairFor hb
  have hmem : key ∈ g.cutLong.grammar.alternatives b :=
    (mem_alternatives_round_of_made Helpers.fits_cut hg hpairs hentry).mpr rfl
  obtain ⟨final, _, hwrap⟩ := exists_mem_changed Helpers.fits_wrap hg.cutLong hwrappers hmem
  exact ⟨final, Option.bind_eq_some_iff.mpr ⟨key, hkey, hwrap⟩⟩

/-- A helper of the second round has the terminal that it stands for. -/
theorem mem_alternatives_wrapper_iff {a b : Name} (hb : g.wrappers.name? [.terminal a] = some b)
    {final : Alternative} :
    final ∈ g.binarize.grammar.alternatives b ↔ final = [.terminal a] := by
  obtain ⟨_, _, _, hwrappers, _, heq⟩ := binarize_eq_ok h
  rw [heq]
  exact mem_alternatives_round_of_made Helpers.fits_wrap hg.cutLong hwrappers
    (Helpers.mem_made_of_name? hb)

theorem derivesWithin_wrapper_iff {a b : Name} (hb : g.wrappers.name? [.terminal a] = some b)
    {d : Nat} {w : List Name} :
    DerivesWithin g.binarize.grammar d [.nonterminal b] w ↔ 0 < d ∧ w = [a] := by
  simp only [derivesWithin_nonterminal_iff, mem_alternatives_wrapper_iff hg h hb, exists_eq_left]
  constructor
  · rintro ⟨e, rfl, hw⟩
    exact ⟨Nat.succ_pos e, derives_terminal_iff.mp hw.derives⟩
  · rintro ⟨hd, rfl⟩
    exact ⟨d - 1, by omega, .terminal .nil⟩

/-- What stands for a symbol in a pair has its sentences, from the first level on. -/
theorem derivesWithin_wrapSymbol_iff {s t : Symbol} (ht : g.wrappers.wrapSymbol s = some t)
    {d : Nat} {w : List Name} :
    DerivesWithin g.binarize.grammar d [t] w ↔
      0 < d ∧ DerivesWithin g.binarize.grammar d [s] w := by
  cases s with
  | terminal a =>
    obtain ⟨b, hb, rfl⟩ := Option.map_eq_some_iff.mp ht
    rw [derivesWithin_wrapper_iff hg h hb]
    refine and_congr_right fun _ => ⟨?_, fun hw => derives_terminal_iff.mp hw.derives⟩
    rintro rfl
    exact .terminal .nil
  | nonterminal a =>
    obtain rfl := Option.some.inj ht
    refine (and_iff_right_of_imp fun hw => ?_).symm
    obtain ⟨e, rfl, _⟩ := derivesWithin_nonterminal_iff.mp hw
    exact Nat.succ_pos e

/-- An alternative derives in its changed form what it derives when it is nested. -/
theorem DerivesNested.derivesWithin {d : Nat} {alternative final : Alternative} {w : List Name}
    (hw : DerivesNested g d alternative w) (hfinal : g.cutAndWrap alternative = some final) :
    DerivesWithin g.binarize.grammar d final w := by
  induction hw generalizing final with
  | nil =>
    rw [cutAndWrap_of_length (by simp)] at hfinal
    obtain rfl := Option.some.inj hfinal
    exact .nil
  | terminal =>
    rw [cutAndWrap_of_length (by simp)] at hfinal
    obtain rfl := Option.some.inj hfinal
    exact .terminal .nil
  | @nonterminal d a alternative w ha _ ih =>
    rw [cutAndWrap_of_length (by simp)] at hfinal
    obtain rfl := Option.some.inj hfinal
    obtain ⟨changed, hchanged⟩ := exists_cutAndWrap hg h ha
    have hmem := (mem_alternatives_binarize_iff hg h (hg.mem_nonterminals ha)).mpr
      ⟨alternative, ha, hchanged⟩
    exact derivesWithin_nonterminal_iff.mpr ⟨d, rfl, changed, hmem, ih hchanged⟩
  | pair _ _ ihu ihw =>
    obtain ⟨s, t, hs, ht, rfl⟩ := Helpers.wrap_pair_iff.mp (cutAndWrap_pair ▸ hfinal)
    have hfirst := ihu (cutAndWrap_of_length (by simp))
    have hsecond := ihw (cutAndWrap_of_length (by simp))
    exact derivesWithin_cons_iff.mpr ⟨_, _, rfl,
      (derivesWithin_wrapSymbol_iff hg h hs).mpr ⟨Nat.succ_pos _, hfirst⟩,
      (derivesWithin_wrapSymbol_iff hg h ht).mpr ⟨Nat.succ_pos _, hsecond⟩⟩
  | @more d word last u w hlong _ _ ihu ihw =>
    -- the helper `b` of the word stands in its place, a level above what is left of it
    obtain ⟨b, t, hb, ht, rfl⟩ := (cutAndWrap_concat_iff hlong).mp hfinal
    obtain ⟨changed, hchanged⟩ := exists_cutAndWrap_of_pairFor hg h hb
    have hmem := (mem_alternatives_pair_iff hg h hb).mpr hchanged
    have hlast := ihw (cutAndWrap_of_length (by simp))
    exact derivesWithin_cons_iff.mpr ⟨_, _, rfl,
      derivesWithin_nonterminal_iff.mpr ⟨d, rfl, changed, hmem, ihu hchanged⟩,
      (derivesWithin_wrapSymbol_iff hg h ht).mpr ⟨Nat.succ_pos _, hlast⟩⟩

end

/-- Below the depth, an alternative that is nested derives what its changed form derives. -/
def NestsBelow (g : Grammar) (d : Nat) : Prop :=
  ∀ e < d, ∀ alternative final w, (∀ s ∈ alternative, g.HasSymbol s) →
    g.cutAndWrap alternative = some final → DerivesWithin g.binarize.grammar e final w →
    DerivesNested g e alternative w

namespace NestsBelow

variable {d : Nat} (hbelow : g.NestsBelow d) (hg : g.WellFormed)
  (h : g.binarize.result = .ok names)
include hbelow hg h

theorem symbol {s : Symbol} {w : List Name} (hs : g.HasSymbol s)
    (hw : DerivesWithin g.binarize.grammar d [s] w) : DerivesNested g d [s] w := by
  cases s with
  | terminal a =>
    rw [derives_terminal_iff.mp hw.derives]
    exact .terminal
  | nonterminal a =>
    obtain ⟨e, rfl, final, hmem, hw⟩ := derivesWithin_nonterminal_iff.mp hw
    obtain ⟨alternative, ha, hfinal⟩ := (mem_alternatives_binarize_iff hg h hs).mp hmem
    have hknown : ∀ s ∈ alternative, g.HasSymbol s := fun s hs => hg.hasSymbol_of_mem ha hs
    exact .nonterminal ha (hbelow e (Nat.lt_succ_self e) alternative final w hknown hfinal hw)

theorem pair {word : List Symbol} {b : Name} {w : List Name}
    (hknown : ∀ s ∈ word, g.HasSymbol s) (hb : g.pairs.pairFor word = some b)
    (hw : DerivesWithin g.binarize.grammar d [.nonterminal b] w) :
    ∃ e, d = e + 1 ∧ DerivesNested g e word w := by
  obtain ⟨e, rfl, final, hmem, hw⟩ := derivesWithin_nonterminal_iff.mp hw
  have hfinal := (mem_alternatives_pair_iff hg h hb).mp hmem
  exact ⟨e, rfl, hbelow e (Nat.lt_succ_self e) word final w hknown hfinal hw⟩

theorem wrapped {s t : Symbol} {w : List Name} (hs : g.HasSymbol s)
    (ht : g.wrappers.wrapSymbol s = some t) (hw : DerivesWithin g.binarize.grammar d [t] w) :
    0 < d ∧ DerivesNested g d [s] w :=
  ((derivesWithin_wrapSymbol_iff hg h ht).mp hw).imp_right (hbelow.symbol hg h hs)

theorem alternative {alternative final : Alternative} {w : List Name}
    (hknown : ∀ s ∈ alternative, g.HasSymbol s) (hfinal : g.cutAndWrap alternative = some final)
    (hw : DerivesWithin g.binarize.grammar d final w) : DerivesNested g d alternative w := by
  rcases Helpers.length_cases alternative with hshort | ⟨word, last, rfl, hlong, _⟩
  · match alternative, hshort with
    | [], _ =>
      obtain rfl := Option.some.inj hfinal
      cases hw
      exact .nil
    | [s], _ =>
      rw [cutAndWrap_of_length (by simp)] at hfinal
      obtain rfl := Option.some.inj hfinal
      exact hbelow.symbol hg h (hknown s (by simp)) hw
    | [first, second], _ =>
      obtain ⟨s, t, hs, ht, rfl⟩ := Helpers.wrap_pair_iff.mp (cutAndWrap_pair ▸ hfinal)
      obtain ⟨u, v, rfl, hu, hv⟩ := derivesWithin_cons_iff.mp hw
      obtain ⟨hd, hfirst⟩ := hbelow.wrapped hg h (hknown first (by simp)) hs hu
      obtain ⟨_, hsecond⟩ := hbelow.wrapped hg h (hknown second (by simp)) ht hv
      obtain ⟨e, rfl⟩ : ∃ e, d = e + 1 := ⟨d - 1, by omega⟩
      exact .pair hfirst hsecond
  · obtain ⟨b, t, hb, ht, rfl⟩ := (cutAndWrap_concat_iff hlong).mp hfinal
    obtain ⟨u, v, rfl, hu, hv⟩ := derivesWithin_cons_iff.mp hw
    have hbefore : ∀ s ∈ word, g.HasSymbol s := fun s hs => hknown s (List.mem_append_left _ hs)
    obtain ⟨e, rfl, hword⟩ := hbelow.pair hg h hbefore hb hu
    obtain ⟨_, hlast⟩ := hbelow.wrapped hg h (hknown last (by simp)) ht hv
    exact .more hlong hword hlast

end NestsBelow

theorem nestsBelow (hg : g.WellFormed) (h : g.binarize.result = .ok names) (d : Nat) :
    g.NestsBelow d := by
  induction d with
  | zero => exact fun e he => absurd he (Nat.not_lt_zero e)
  | succ d ih =>
    intro e he alternative final w hknown hfinal hw
    rcases Nat.lt_succ_iff_lt_or_eq.mp he with he | rfl
    · exact ih e he alternative final w hknown hfinal hw
    · exact ih.alternative hg h hknown hfinal hw

/-- Cutting into pairs gives a nonterminal exactly the derivations whose alternatives are nested, at
their depths. -/
theorem derivesWithin_binarize_iff (hg : g.WellFormed) (h : g.binarize.result = .ok names)
    {a : Name} (ha : a ∈ g.nonterminals) {d : Nat} {w : List Name} :
    DerivesWithin g.binarize.grammar d [.nonterminal a] w ↔
      DerivesNested g d [.nonterminal a] w :=
  ⟨(nestsBelow hg h d).symbol hg h ha, fun hw =>
    hw.derivesWithin hg h (cutAndWrap_of_length (by simp))⟩

end Grammar

end ContextFree

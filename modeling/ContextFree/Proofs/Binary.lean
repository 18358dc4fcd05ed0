import ContextFree.Proofs.Round

/-!
Cutting alternatives into pairs. In the first round a helper stands for two symbols, in the second
for a terminal.
-/

namespace ContextFree

open Grammar

namespace Helpers

variable {g k : Grammar} {helpers : Helpers}

theorem Valid.makePairs (hv : Valid g (·.length = 2) helpers) {first : Symbol}
    {rest : List Symbol} (hs : ∀ s ∈ first :: rest, helpers.Knows g s) :
    Valid g (·.length = 2) (helpers.makePairs first rest) := by
  fun_induction Helpers.makePairs helpers first rest with
  | case1 helpers first second third rest made a ha ih =>
    simp only [List.forall_mem_cons] at hs
    obtain ⟨hfirst, hsecond, hrest⟩ := hs
    have hsub := helpers.names_subset_make [first, second]
    have hmade : Valid g (·.length = 2) made := hv.make rfl (by simp [hfirst, hsecond])
    apply ih hmade
    rw [List.forall_mem_cons]
    constructor
    · exact knows_of_name? ha
    · exact fun s hmem => ((List.forall_mem_cons.mpr hrest) s hmem).mono hsub
  | case2 helpers first second third rest made ha =>
    simp only [List.forall_mem_cons] at hs
    exact hv.make rfl (by simp [hs.1, hs.2.1])
  | case3 => exact hv

theorem knows_cutFrom {first : Symbol} {rest : List Symbol} {changed : Alternative}
    (h : helpers.cutFrom first rest = some changed)
    (hs : ∀ s ∈ first :: rest, helpers.Knows g s) : ∀ s ∈ changed, helpers.Knows g s := by
  fun_induction cutFrom helpers first rest with
  | case1 first second third rest ih =>
    obtain ⟨a, ha, h⟩ := Option.bind_eq_some_iff.mp h
    apply ih a h
    rw [List.forall_mem_cons]
    constructor
    · exact knows_of_name? ha
    · exact fun s hmem => hs s (List.mem_cons_of_mem _ (List.mem_cons_of_mem _ hmem))
  | case2 => rwa [← Option.some.inj h]

theorem derives_cutFrom_iff (hk : helpers.StandFor k) {first : Symbol} {rest : List Symbol}
    {changed : Alternative} (h : helpers.cutFrom first rest = some changed) (w : List Name) :
    Derives k changed w ↔ Derives k (first :: rest) w := by
  fun_induction cutFrom helpers first rest with
  | case1 first second third rest ih =>
    obtain ⟨a, ha, h⟩ := Option.bind_eq_some_iff.mp h
    exact (ih a h).trans (derives_append_congr (hk [first, second] a ha) (third :: rest) w)
  | case2 => rw [← Option.some.inj h]

theorem length_cutFrom {first : Symbol} {rest : List Symbol} {changed : Alternative}
    (h : helpers.cutFrom first rest = some changed) :
    changed.length = min 2 (first :: rest).length := by
  fun_induction cutFrom helpers first rest with
  | case1 first second third rest ih =>
    obtain ⟨a, _, h⟩ := Option.bind_eq_some_iff.mp h
    simpa using ih a h
  | case2 rest first hrest =>
    rw [← Option.some.inj h]
    match rest, hrest with
    | [], _ => rfl
    | [_], _ => rfl
    | second :: third :: rest, hrest => exact absurd rfl (hrest second third rest)

/-- Alternatives with less than two symbols stay, and all others are cut down to two. -/
theorem cut_eq_some {alternative changed : Alternative}
    (h : helpers.cut alternative = some changed) :
    alternative.length < 2 ∧ changed = alternative ∨
      2 ≤ alternative.length ∧ changed.length = 2 := by
  match alternative with
  | [] => exact .inl ⟨by decide, (Option.some.inj h).symm⟩
  | [s] => exact .inl ⟨by simp, (Option.some.inj h).symm⟩
  | first :: second :: rest =>
    have hlength := length_cutFrom h
    simp only [List.length_cons] at hlength ⊢
    omega

theorem fits_cut : Fits (·.length = 2) makeForLong cut where
  valid {g helpers alternative} hv hs := by
    cases alternative with
    | nil => exact hv
    | cons first rest => exact hv.makePairs fun s hmem => .inl (hs s hmem)
  knows {g helpers alternative changed} h hs := by
    cases alternative with
    | nil =>
      obtain rfl := Option.some.inj h
      exact hs
    | cons first rest => exact knows_cutFrom h hs
  derives {k helpers alternative changed} h hk w := by
    cases alternative with
    | nil =>
      obtain rfl := Option.some.inj h
      rfl
    | cons first rest => exact derives_cutFrom_iff hk h w

theorem Valid.makeForTerminal (hv : Valid g (∃ a, · = [.terminal a]) helpers) {s : Symbol}
    (hs : helpers.Knows g s) : Valid g (∃ a, · = [.terminal a]) (helpers.makeForTerminal s) := by
  cases s with
  | terminal a => exact hv.make ⟨a, rfl⟩ (by simpa using hs)
  | nonterminal a => exact hv

theorem knows_wrapSymbol {s t : Symbol} (h : helpers.wrapSymbol s = some t)
    (hs : helpers.Knows g s) : helpers.Knows g t := by
  cases s with
  | terminal a =>
    obtain ⟨b, hb, rfl⟩ := Option.map_eq_some_iff.mp h
    exact knows_of_name? hb
  | nonterminal a => rwa [← Option.some.inj h]

theorem derives_wrapSymbol_iff (hk : helpers.StandFor k) {s t : Symbol}
    (h : helpers.wrapSymbol s = some t) (w : List Name) : Derives k [t] w ↔ Derives k [s] w := by
  cases s with
  | terminal a =>
    obtain ⟨b, hb, rfl⟩ := Option.map_eq_some_iff.mp h
    exact hk _ _ hb w
  | nonterminal a => rw [← Option.some.inj h]

theorem derives_wrapSymbols_iff (hk : helpers.StandFor k) {xs ys : List Symbol}
    (h : List.Forall₂ (fun s t => helpers.wrapSymbol s = some t) xs ys) (w : List Name) :
    Derives k ys w ↔ Derives k xs w :=
  derives_iff_of_forall₂ (h.imp fun _ _ hst => derives_wrapSymbol_iff hk hst)

/-- An alternative of two symbols is changed symbol by symbol, and every other one stays. -/
theorem wrap_eq_some {alternative changed : Alternative}
    (h : helpers.wrap alternative = some changed) :
    alternative.length = 2 ∧
        List.Forall₂ (fun s t => helpers.wrapSymbol s = some t) alternative changed ∨
      alternative.length ≠ 2 ∧ changed = alternative := by
  unfold wrap at h
  split at h
  next first second => exact .inl ⟨rfl, mapM_eq_some_iff.mp h⟩
  next hne =>
    have hlength : alternative.length ≠ 2 := by
      intro hlength
      obtain ⟨first, second, rfl⟩ := List.length_eq_two.mp hlength
      exact hne first second rfl
    exact .inr ⟨hlength, (Option.some.inj h).symm⟩

theorem exists_nonterminal_of_wrapSymbol {s t : Symbol} (h : helpers.wrapSymbol s = some t) :
    ∃ a, t = .nonterminal a := by
  cases s with
  | terminal a =>
    obtain ⟨b, _, rfl⟩ := Option.map_eq_some_iff.mp h
    exact ⟨b, rfl⟩
  | nonterminal a => exact ⟨a, (Option.some.inj h).symm⟩

/-- A changed pair is a pair of nonterminals. -/
theorem exists_pair_of_wrap {alternative changed : Alternative}
    (h : helpers.wrap alternative = some changed) (hlength : alternative.length = 2) :
    ∃ a b, changed = [.nonterminal a, .nonterminal b] := by
  rcases wrap_eq_some h with ⟨_, hwrap⟩ | ⟨hne, _⟩
  · have hchanged : changed.length = 2 := hwrap.length_eq ▸ hlength
    obtain ⟨s, t, rfl⟩ := List.length_eq_two.mp hchanged
    obtain ⟨_, _, hs⟩ := Forall₂.exists_left hwrap (y := s) (by simp)
    obtain ⟨_, _, ht⟩ := Forall₂.exists_left hwrap (y := t) (by simp)
    obtain ⟨a, rfl⟩ := exists_nonterminal_of_wrapSymbol hs
    obtain ⟨b, rfl⟩ := exists_nonterminal_of_wrapSymbol ht
    exact ⟨a, b, rfl⟩
  · exact absurd hlength hne

theorem fits_wrap : Fits (∃ a, · = [.terminal a]) makeForPair wrap where
  valid {g helpers alternative} hv hs := by
    unfold makeForPair
    split
    next first second =>
      simp only [List.forall_mem_cons] at hs
      have hfirst := hv.makeForTerminal (.inl hs.1)
      exact hfirst.makeForTerminal (.inl hs.2.1)
    next => exact hv
  knows {g helpers alternative changed} h hs := by
    rcases wrap_eq_some h with ⟨_, hwrap⟩ | ⟨_, rfl⟩
    · intro t ht
      obtain ⟨s, hmem, hst⟩ := Forall₂.exists_left hwrap ht
      exact knows_wrapSymbol hst (hs s hmem)
    · exact hs
  derives {k helpers alternative changed} h hk w := by
    rcases wrap_eq_some h with ⟨_, hwrap⟩ | ⟨_, rfl⟩
    · exact derives_wrapSymbols_iff hk hwrap w
    · rfl

end Helpers

namespace Grammar

variable {g : Grammar}

theorem binarize_of_error {fault : GrammarError} (h : g.cutLong.result = .error fault) :
    g.binarize = ⟨.error fault, g.cutLong.grammar⟩ := by
  simp only [binarize, h]

/-- Cutting ends with the first round if that runs out of names, and else with the second. -/
theorem binarize_cases (g : Grammar) :
    (∃ fault, g.cutLong.result = .error fault ∧
      g.binarize = ⟨.error fault, g.cutLong.grammar⟩) ∨
    ∃ pairs, g.cutLong.result = .ok pairs ∧
      g.binarize = ⟨g.cutLong.grammar.wrapTerminals.result.map (pairs ++ ·),
        g.cutLong.grammar.wrapTerminals.grammar⟩ := by
  cases h : g.cutLong.result with
  | error fault => exact .inl ⟨fault, rfl, binarize_of_error h⟩
  | ok pairs => exact .inr ⟨pairs, rfl, by simp [binarize, h]⟩

theorem eq_outOfNames_of_binarize {fault : GrammarError}
    (h : g.binarize.result = .error fault) : fault = .outOfNames := by
  rcases g.binarize_cases with ⟨_, hcut, heq⟩ | ⟨_, _, heq⟩
  · rw [heq] at h
    obtain rfl := Except.error.inj h
    exact eq_outOfNames_of_round hcut
  · rw [heq, map_eq_error_iff] at h
    exact eq_outOfNames_of_round h

theorem binarize_eq_ok {names : List Name} (h : g.binarize.result = .ok names) :
    ∃ pairs wrappers, g.cutLong.result = .ok pairs ∧
      g.cutLong.grammar.wrapTerminals.result = .ok wrappers ∧ names = pairs ++ wrappers ∧
      g.binarize.grammar = g.cutLong.grammar.wrapTerminals.grammar := by
  rcases g.binarize_cases with ⟨fault, _, heq⟩ | ⟨pairs, hpairs, heq⟩
  · rw [heq] at h
    cases h
  · rw [heq] at h
    cases hresult : g.cutLong.grammar.wrapTerminals.result with
    | error fault => simp [hresult, Except.map] at h
    | ok wrappers =>
      simp only [hresult, Except.map, Except.ok.injEq] at h
      exact ⟨pairs, wrappers, hpairs, rfl, h.symm, by rw [heq]⟩

theorem WellFormed.cutLong (hg : g.WellFormed) : g.cutLong.grammar.WellFormed :=
  hg.round Helpers.fits_cut

theorem WellFormed.binarize (hg : g.WellFormed) : g.binarize.grammar.WellFormed := by
  rcases g.binarize_cases with ⟨_, _, heq⟩ | ⟨_, _, heq⟩
  · exact heq ▸ hg.cutLong
  · exact heq ▸ hg.cutLong.round Helpers.fits_wrap

/-- Whether cutting goes through or not, it adds no sentences to the nonterminals that were there
before. -/
theorem Generates.of_binarize (hg : g.WellFormed) {a : Name} (ha : a ∈ g.nonterminals)
    {w : List Name} (hw : g.binarize.grammar.Generates a w) : g.Generates a w := by
  rcases g.binarize_cases with ⟨_, _, heq⟩ | ⟨_, _, heq⟩ <;> rw [heq] at hw
  · exact .of_round Helpers.fits_cut hg ha hw
  · have ha' : a ∈ g.cutLong.grammar.nonterminals := List.mem_append_left _ ha
    exact .of_round Helpers.fits_cut hg ha (.of_round Helpers.fits_wrap hg.cutLong ha' hw)

/-- Cutting that goes through keeps the sentences of the nonterminals that were there before. -/
theorem generates_binarize_iff (hg : g.WellFormed) {names : List Name}
    (h : g.binarize.result = .ok names) {a : Name} (ha : a ∈ g.nonterminals) {w : List Name} :
    g.binarize.grammar.Generates a w ↔ g.Generates a w := by
  obtain ⟨_, _, hpairs, hwrappers, _, heq⟩ := binarize_eq_ok h
  have ha' : a ∈ g.cutLong.grammar.nonterminals := List.mem_append_left _ ha
  rw [heq]
  exact (generates_round_iff Helpers.fits_wrap hg.cutLong hwrappers ha').trans
    (generates_round_iff Helpers.fits_cut hg hpairs ha)

end Grammar

end ContextFree

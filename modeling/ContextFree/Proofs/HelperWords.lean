import ContextFree.Proofs.HelperUse
import Mathlib.Data.List.Infix

/-!
What helpers stand for. In the first round they stand for the beginnings of long alternatives, in
the second one for the terminals in pairs. The alternative of a helper may mention other helpers;
the word that it stands for mentions symbols of the grammar only.
-/

namespace ContextFree

open Grammar

namespace Helpers

variable {g : Grammar} {helpers all : Helpers} {Key : Alternative → Prop}

/-- Once the names are used up, no more come in. -/
theorem Valid.free_eq_nil (hv : Valid g Key helpers) (hv' : Valid g Key all)
    (hall : helpers.made <+: all.made) (h : helpers.free = []) : all.free = [] := by
  obtain ⟨later, hlater⟩ := hall
  have hnames : all.names = helpers.names ++ later.map Prod.snd := by
    rw [names, names, ← hlater, List.map_append]
  have hfree := hv'.names_append_free.trans hv.names_append_free.symm
  rw [hnames, h, List.append_assoc] at hfree
  exact (List.append_eq_nil_iff.mp (List.append_cancel_left hfree)).2

theorem make_of_free_eq_nil (h : helpers.free = []) (alternative : Alternative) :
    helpers.make alternative = helpers := by
  rcases helpers.make_cases alternative with heq | ⟨a, free, _, hfree, _⟩
  · exact heq
  · cases h.symm.trans hfree

/-- A helper is missing only when no name is left. -/
theorem free_eq_nil_of_name?_make {alternative : Alternative}
    (h : (helpers.make alternative).name? alternative = none) :
    (helpers.make alternative).free = [] := by
  unfold make at h ⊢
  split at h
  next a free hnone hfree =>
    rw [name?] at hnone
    simp [name?, List.lookup_append, hnone] at h
  next hcases =>
    cases hfree : helpers.free with
    | nil => rfl
    | cons a free => exact absurd hfree (hcases a free h)

/-- The words that a round makes helpers for. An alternative is changed as soon as the words in it
have helpers, each helper stands for one word, and a word goes without only when names run out. -/
structure Serves (wanted : Alternative → List (List Symbol))
    (answer : Helpers → List Symbol → Option Name) (make : Helpers → Alternative → Helpers)
    (change : Helpers → Alternative → Option Alternative) : Prop where
  mem_of_mem_wanted {alternative : Alternative} {word : List Symbol} :
    word ∈ wanted alternative → ∀ s ∈ word, s ∈ alternative
  answer_mono {helpers all : Helpers} {word : List Symbol} {a : Name} :
    helpers.made <+: all.made → answer helpers word = some a → answer all word = some a
  mem_names {helpers : Helpers} {word : List Symbol} {a : Name} :
    answer helpers word = some a → a ∈ helpers.names
  injective {g : Grammar} {Key : Alternative → Prop} {helpers : Helpers}
    {word word' : List Symbol} {a : Name} :
    Valid g Key helpers → (∀ s ∈ word, g.HasSymbol s) → (∀ s ∈ word', g.HasSymbol s) →
    answer helpers word = some a → answer helpers word' = some a → word = word'
  names_make {helpers : Helpers} {alternative : Alternative} :
    ∀ a ∈ (make helpers alternative).names, a ∈ helpers.names ∨
      ∃ word ∈ wanted alternative, answer (make helpers alternative) word = some a
  answered_make (helpers : Helpers) (alternative : Alternative) :
    (∀ word ∈ wanted alternative, (answer (make helpers alternative) word).isSome = true) ∨
      (make helpers alternative).free = []
  change_isSome_iff (helpers : Helpers) (alternative : Alternative) :
    (change helpers alternative).isSome = true ↔
      ∀ word ∈ wanted alternative, (answer helpers word).isSome = true

/-- The helper that is left when the symbols are put behind a helper one by one. -/
def chain (helpers : Helpers) (a : Name) (word : List Symbol) : Option Name :=
  word.foldlM (fun a s => helpers.name? [.nonterminal a, s]) a

/-- The helper of the first round for a word of at least two symbols. -/
def pairFor (helpers : Helpers) : List Symbol → Option Name
  | first :: second :: rest => (helpers.name? [first, second]).bind fun a => helpers.chain a rest
  | _ => none

/-- The beginnings of an alternative that are pairs or longer, but not the whole alternative. -/
def beginnings (alternative : Alternative) : List (List Symbol) :=
  alternative.inits.filter fun word => 2 ≤ word.length && word.length < alternative.length

theorem mem_beginnings {alternative : Alternative} {word : List Symbol} :
    word ∈ beginnings alternative ↔
      word <+: alternative ∧ 2 ≤ word.length ∧ word.length < alternative.length := by
  simp [beginnings]

theorem beginnings_trans {alternative word before : List Symbol}
    (hbefore : before ∈ beginnings word) (hword : word ∈ beginnings alternative) :
    before ∈ beginnings alternative := by
  obtain ⟨hbegins, hlong, hlength⟩ := mem_beginnings.mp hbefore
  obtain ⟨hbegins', _, hlength'⟩ := mem_beginnings.mp hword
  exact mem_beginnings.mpr ⟨hbegins.trans hbegins', hlong, Nat.lt_trans hlength hlength'⟩

@[simp] theorem chain_nil {a : Name} : helpers.chain a [] = some a := rfl

@[simp] theorem chain_cons {a : Name} {s : Symbol} {word : List Symbol} :
    helpers.chain a (s :: word) =
      (helpers.name? [.nonterminal a, s]).bind fun b => helpers.chain b word := rfl

theorem chain_append {a : Name} {word rest : List Symbol} :
    helpers.chain a (word ++ rest) =
      (helpers.chain a word).bind fun b => helpers.chain b rest := List.foldlM_append

theorem pairFor_append {word rest : List Symbol} (h : 2 ≤ word.length) :
    helpers.pairFor (word ++ rest) =
      (helpers.pairFor word).bind fun b => helpers.chain b rest := by
  match word, h with
  | first :: second :: word, _ =>
    simp only [List.cons_append, pairFor, chain_append, Option.bind_assoc]

theorem pairFor_nonterminal_cons {a : Name} {word : List Symbol} (h : word ≠ []) :
    helpers.pairFor (.nonterminal a :: word) = helpers.chain a word := by
  cases word with
  | nil => exact absurd rfl h
  | cons s rest => rfl

/-- A helper stands for a pair, or for a word that is one symbol longer than that of another
helper. -/
theorem pairFor_cases {word : List Symbol} {a : Name} (h : helpers.pairFor word = some a) :
    (∃ first second, word = [first, second] ∧ (word, a) ∈ helpers.made) ∨
      ∃ before s b, word = before ++ [s] ∧ helpers.pairFor before = some b ∧
        ([.nonterminal b, s], a) ∈ helpers.made := by
  match word, h with
  | first :: second :: rest, h =>
    rcases List.eq_nil_or_concat' rest with rfl | ⟨rest, s, rfl⟩
    · exact .inl ⟨first, second, rfl, mem_made_of_name? (by simpa [pairFor] using h)⟩
    · rw [← List.cons_append, ← List.cons_append, pairFor_append (by simp)] at h
      obtain ⟨b, hb, h⟩ := Option.bind_eq_some_iff.mp h
      exact .inr ⟨first :: second :: rest, s, b, by simp, hb,
        mem_made_of_name? (by simpa using h)⟩

theorem length_of_pairFor {word : List Symbol} {a : Name} (h : helpers.pairFor word = some a) :
    2 ≤ word.length := by
  match word, h with
  | _ :: _ :: _, _ => simp

theorem mem_names_of_pairFor {word : List Symbol} {a : Name} (h : helpers.pairFor word = some a) :
    a ∈ helpers.names := by
  rcases pairFor_cases h with ⟨_, _, _, hentry⟩ | ⟨_, _, _, _, _, hentry⟩
  · exact List.mem_map_of_mem hentry
  · exact List.mem_map_of_mem hentry

/-- The helpers begin with a symbol of the grammar, so a pair that begins with a helper is not a
word. -/
theorem Valid.not_pairFor_head (hv : Valid g Key helpers) {word : List Symbol} {a : Name}
    {s : Symbol} (h : helpers.pairFor word = some a) (hs : g.HasSymbol s) :
    s ≠ .nonterminal a := by
  rintro rfl
  exact hv.notMem_nonterminals (mem_names_of_pairFor h) hs

theorem pairFor_injective (hv : Valid g Key helpers) {word word' : List Symbol} {a : Name}
    (hword : ∀ s ∈ word, g.HasSymbol s) (hword' : ∀ s ∈ word', g.HasSymbol s)
    (h : helpers.pairFor word = some a) (h' : helpers.pairFor word' = some a) : word = word' := by
  induction hn : word.length using Nat.strongRecOn generalizing word word' a with
  | _ n ih =>
    rcases pairFor_cases h with ⟨first, second, rfl, hentry⟩ | ⟨before, s, b, rfl, hb, hentry⟩ <;>
    rcases pairFor_cases h' with
      ⟨first', second', rfl, hentry'⟩ | ⟨before', s', b', rfl, hb', hentry'⟩
    · exact hv.key_unique hentry hentry'
    · have hkey := hv.key_unique hentry hentry'
      exact absurd (List.cons.inj hkey).1 (hv.not_pairFor_head hb' (hword first (by simp)))
    · have hkey := hv.key_unique hentry hentry'
      exact absurd (List.cons.inj hkey).1.symm (hv.not_pairFor_head hb (hword' first' (by simp)))
    · have hkey := hv.key_unique hentry hentry'
      simp only [List.cons.injEq, Symbol.nonterminal.injEq, and_true] at hkey
      obtain ⟨rfl, rfl⟩ := hkey
      simp only [List.forall_mem_append] at hword hword'
      have hlt : before.length < n := by
        rw [← hn, List.length_append, List.length_singleton]
        exact Nat.lt_succ_self _
      rw [ih _ hlt hword.1 hword'.1 hb hb' rfl]

theorem chain_mono (hall : helpers.made <+: all.made) {a b : Name} {word : List Symbol}
    (h : helpers.chain a word = some b) : all.chain a word = some b := by
  induction word generalizing a with
  | nil => exact h
  | cons s rest ih =>
    obtain ⟨c, hc, h⟩ := Option.bind_eq_some_iff.mp h
    exact Option.bind_eq_some_iff.mpr ⟨c, name?_mono hall hc, ih h⟩

theorem pairFor_mono (hall : helpers.made <+: all.made) {word : List Symbol} {a : Name}
    (h : helpers.pairFor word = some a) : all.pairFor word = some a := by
  match word, h with
  | first :: second :: rest, h =>
    obtain ⟨b, hb, h⟩ := Option.bind_eq_some_iff.mp h
    exact Option.bind_eq_some_iff.mpr ⟨b, name?_mono hall hb, chain_mono hall h⟩

/-- Every helper that is made for the alternative `first :: rest` stands for one of its
beginnings. -/
theorem exists_word_of_makePairs {first : Symbol} {rest : List Symbol} :
    ∀ a ∈ (helpers.makePairs first rest).names, a ∈ helpers.names ∨
      ∃ word, word ≠ [] ∧ word <+: rest ∧ word.length < rest.length ∧
        (helpers.makePairs first rest).pairFor (first :: word) = some a := by
  fun_induction Helpers.makePairs helpers first rest with
  | case1 helpers first second third rest made a ha ih =>
    have hgrows := made.made_prefix_makePairs (.nonterminal a) (third :: rest)
    intro b hb
    rcases ih b hb with hmade | ⟨word, hne, hbegins, hlength, hanswer⟩
    · refine (mem_names_make hmade).imp_right fun hb => ?_
      refine ⟨[second], by simp, by simp, by simp, ?_⟩
      simpa [pairFor] using name?_mono hgrows hb
    · rw [pairFor_nonterminal_cons hne] at hanswer
      refine .inr ⟨second :: word, by simp, by simpa using hbegins, by simpa using hlength, ?_⟩
      exact Option.bind_eq_some_iff.mpr ⟨a, name?_mono hgrows ha, hanswer⟩
  | case2 helpers first second third rest made ha =>
    intro b hb
    refine .inl ((mem_names_make hb).resolve_right fun hb => ?_)
    cases ha.symm.trans hb
  | case3 => exact fun b hb => .inl hb

/-- Every beginning of the alternative `first :: rest` gets its helper, unless names run out. -/
theorem isSome_pairFor_makePairs (helpers : Helpers) (first : Symbol) (rest : List Symbol) :
    (∀ word, word ≠ [] → word <+: rest → word.length < rest.length →
      ((helpers.makePairs first rest).pairFor (first :: word)).isSome = true) ∨
      (helpers.makePairs first rest).free = [] := by
  fun_induction Helpers.makePairs helpers first rest with
  | case1 helpers first second third rest made a ha ih =>
    have hgrows := made.made_prefix_makePairs (.nonterminal a) (third :: rest)
    have hname := name?_mono hgrows ha
    refine ih.imp_left fun ih word hne hbegins hlength => ?_
    obtain ⟨word, rfl⟩ : ∃ word', word = second :: word' := by
      cases word with
      | nil => exact absurd rfl hne
      | cons s word => exact ⟨word, by rw [(List.cons_prefix_cons.mp hbegins).1]⟩
    rw [pairFor, hname, Option.bind_some]
    by_cases hword : word = []
    · simp [hword]
    · rw [← pairFor_nonterminal_cons hword]
      exact ih word hword (List.cons_prefix_cons.mp hbegins).2 (by simpa using hlength)
  | case2 helpers first second third rest made ha => exact .inr (free_eq_nil_of_name?_make ha)
  | case3 rest helpers first hrest =>
    refine .inl fun word hne _ hlength => ?_
    match rest, hrest with
    | [], _ => simp at hlength
    | [_], _ => exact absurd (List.length_eq_zero_iff.mp (by simpa using hlength)) hne
    | second :: third :: rest, hrest => exact absurd rfl (hrest second third rest)

theorem cutFrom_nonterminal (helpers : Helpers) (a : Name) (word : List Symbol) (last : Symbol) :
    helpers.cutFrom (.nonterminal a) (word ++ [last]) =
      (helpers.chain a word).map fun b => [.nonterminal b, last] := by
  induction word generalizing a with
  | nil => rfl
  | cons s rest ih =>
    have hstep : helpers.cutFrom (.nonterminal a) (s :: (rest ++ [last])) =
        (helpers.name? [.nonterminal a, s]).bind fun b =>
          helpers.cutFrom (.nonterminal b) (rest ++ [last]) := by
      cases rest <;> rfl
    rw [List.cons_append, hstep, chain_cons, Option.map_bind]
    simp only [ih, Function.comp_def]

/-- A long alternative is left with the helper of the longest beginning and its last symbol. -/
theorem cut_concat {word : List Symbol} (h : 2 ≤ word.length) (last : Symbol) :
    helpers.cut (word ++ [last]) =
      (helpers.pairFor word).map fun a => [.nonterminal a, last] := by
  match word, h with
  | first :: second :: rest, _ =>
    have hstep : helpers.cut (first :: second :: (rest ++ [last])) =
        (helpers.name? [first, second]).bind fun a =>
          helpers.cutFrom (.nonterminal a) (rest ++ [last]) := by
      cases rest <;> rfl
    rw [List.cons_append, List.cons_append, hstep, pairFor, Option.map_bind]
    simp only [cutFrom_nonterminal, Function.comp_def]

theorem cut_of_length {alternative : Alternative} (h : alternative.length ≤ 2) :
    helpers.cut alternative = some alternative := by
  match alternative, h with
  | [], _ => rfl
  | [_], _ => rfl
  | [_, _], _ => rfl

/-- The alternative of a helper of the first round is the word that it stands for, cut. -/
theorem exists_key_of_pairFor {word : List Symbol} {a : Name}
    (h : helpers.pairFor word = some a) :
    ∃ key, helpers.cut word = some key ∧ (key, a) ∈ helpers.made := by
  rcases pairFor_cases h with ⟨first, second, rfl, hentry⟩ | ⟨before, s, b, rfl, hb, hentry⟩
  · exact ⟨_, cut_of_length (by simp), hentry⟩
  · exact ⟨_, by rw [cut_concat (length_of_pairFor hb), hb, Option.map_some], hentry⟩

/-- An alternative is short or has a longest beginning. -/
theorem length_cases (alternative : Alternative) :
    alternative.length ≤ 2 ∨
      ∃ word last, alternative = word ++ [last] ∧ 2 ≤ word.length ∧
        word ∈ beginnings alternative := by
  rcases List.eq_nil_or_concat' alternative with rfl | ⟨word, last, rfl⟩
  · exact .inl (by simp)
  · by_cases h : 2 ≤ word.length
    · exact .inr ⟨word, last, rfl, h, mem_beginnings.mpr ⟨List.prefix_append _ _, h, by simp⟩⟩
    · left
      rw [List.length_append, List.length_singleton]
      omega

theorem beginnings_of_length {alternative : Alternative} (h : alternative.length ≤ 2) :
    beginnings alternative = [] := by
  rw [List.eq_nil_iff_forall_not_mem]
  intro word hword
  obtain ⟨_, hlong, hlength⟩ := mem_beginnings.mp hword
  omega

theorem isSome_cut_iff (helpers : Helpers) (alternative : Alternative) :
    (helpers.cut alternative).isSome = true ↔
      ∀ word ∈ beginnings alternative, (helpers.pairFor word).isSome = true := by
  rcases length_cases alternative with h | ⟨longest, last, rfl, hlong, hmem⟩
  · simp [cut_of_length h, beginnings_of_length h]
  · rw [cut_concat hlong, Option.isSome_map]
    constructor
    · intro h word hword
      obtain ⟨hbegins, hlength, hlt⟩ := mem_beginnings.mp hword
      obtain ⟨rest, rfl⟩ : word <+: longest := by
        apply List.prefix_of_prefix_length_le hbegins (List.prefix_append _ _)
        rw [List.length_append, List.length_singleton] at hlt
        omega
      rw [pairFor_append hlength] at h
      exact Option.isSome_of_isSome_bind h
    · exact fun h => h longest hmem

theorem serves_cut : Serves beginnings pairFor makeForLong cut where
  mem_of_mem_wanted hword s hs := (mem_beginnings.mp hword).1.subset hs
  answer_mono hall h := pairFor_mono hall h
  mem_names := mem_names_of_pairFor
  injective hv hword hword' := pairFor_injective hv hword hword'
  names_make {helpers alternative} := by
    cases alternative with
    | nil => exact fun a ha => .inl ha
    | cons first rest =>
      intro a ha
      refine (exists_word_of_makePairs a ha).imp_right ?_
      rintro ⟨word, hne, hbegins, hlength, hanswer⟩
      refine ⟨first :: word, mem_beginnings.mpr ⟨by simpa using hbegins, ?_, ?_⟩, hanswer⟩
      · have hpos := List.length_pos_iff.mpr hne
        rw [List.length_cons]
        omega
      · simpa using hlength
  answered_make helpers alternative := by
    cases alternative with
    | nil => exact .inl (by simp [beginnings])
    | cons first rest =>
      refine (isSome_pairFor_makePairs helpers first rest).imp_left fun h word hword => ?_
      obtain ⟨hbegins, hlong, hlength⟩ := mem_beginnings.mp hword
      match word, hlong with
      | s :: second :: word, _ =>
        obtain ⟨rfl, hrest⟩ := List.cons_prefix_cons.mp hbegins
        exact h _ (by simp) hrest (by simpa using hlength)
  change_isSome_iff := isSome_cut_iff

/-- The helper of the second round for a word that is a terminal. -/
def wrapperFor (helpers : Helpers) : List Symbol → Option Name
  | [.terminal a] => helpers.name? [.terminal a]
  | _ => none

/-- The terminals in a pair, each as a word of its own. -/
def terminalWords (alternative : Alternative) : List (List Symbol) :=
  if alternative.length = 2 then
    (alternative.filterMap Symbol.terminal?).map fun a => [.terminal a]
  else []

theorem mem_terminalWords {alternative : Alternative} {word : List Symbol} :
    word ∈ terminalWords alternative ↔
      alternative.length = 2 ∧ ∃ a, .terminal a ∈ alternative ∧ word = [.terminal a] := by
  unfold terminalWords
  split_ifs with h
  · simp [h, Symbol.terminal?_eq_some_iff, @eq_comm _ word]
  · simp [h]

theorem wrapperFor_eq_some_iff {word : List Symbol} {a : Name} :
    helpers.wrapperFor word = some a ↔
      ∃ b, word = [.terminal b] ∧ helpers.name? [.terminal b] = some a := by
  unfold wrapperFor
  split
  next b => simp
  next hne => simpa using fun b hb => absurd hb (hne b)

theorem exists_word_of_makeForTerminal {s : Symbol} {a : Name}
    (h : a ∈ (helpers.makeForTerminal s).names) :
    a ∈ helpers.names ∨ (helpers.makeForTerminal s).wrapperFor [s] = some a := by
  cases s with
  | terminal b => exact mem_names_make h
  | nonterminal b => exact .inl h

theorem wrapperFor_mono (hall : helpers.made <+: all.made) {word : List Symbol} {a : Name}
    (h : helpers.wrapperFor word = some a) : all.wrapperFor word = some a := by
  obtain ⟨b, rfl, h⟩ := wrapperFor_eq_some_iff.mp h
  exact name?_mono hall h

/-- The terminals of a pair get their helpers, unless names run out. -/
theorem isSome_wrapperFor_makeForPair (helpers : Helpers) (first second : Symbol) :
    (∀ a, .terminal a ∈ [first, second] →
      ((helpers.makeForPair [first, second]).wrapperFor [.terminal a]).isSome = true) ∨
      (helpers.makeForPair [first, second]).free = [] := by
  have hone (helpers : Helpers) (s : Symbol) :
      (∀ a, s = .terminal a → ((helpers.makeForTerminal s).wrapperFor [s]).isSome = true) ∨
        (helpers.makeForTerminal s).free = [] := by
    cases s with
    | nonterminal a => exact .inl nofun
    | terminal a =>
      rw [or_iff_not_imp_right]
      intro hfree b hb
      rw [← Option.isNone_eq_false_iff, ← Bool.not_eq_true, Option.isNone_iff_eq_none]
      exact fun hnone => hfree (free_eq_nil_of_name?_make hnone)
  have hkept (helpers : Helpers) (s : Symbol) (h : helpers.free = []) :
      (helpers.makeForTerminal s).free = [] := by
    cases s with
    | nonterminal a => exact h
    | terminal a => rw [makeForTerminal, make_of_free_eq_nil h, h]
  rcases hone helpers first with hfirst | hfree
  · refine (hone (helpers.makeForTerminal first) second).imp_left fun hsecond a ha => ?_
    simp only [List.mem_cons, List.not_mem_nil, or_false] at ha
    rcases ha with rfl | rfl
    · obtain ⟨b, hb⟩ := Option.isSome_iff_exists.mp (hfirst a rfl)
      exact Option.isSome_iff_exists.mpr
        ⟨b, wrapperFor_mono (made_prefix_makeForTerminal _ second) hb⟩
    · exact hsecond a rfl
  · exact .inr (hkept _ second hfree)

theorem isSome_wrapSymbol_iff {s : Symbol} :
    (helpers.wrapSymbol s).isSome = true ↔
      ∀ a, s = .terminal a → (helpers.wrapperFor [.terminal a]).isSome = true := by
  cases s with
  | terminal a => simp [wrapSymbol, wrapperFor]
  | nonterminal a => simp [wrapSymbol]

theorem wrap_of_length {alternative : Alternative} (h : alternative.length ≠ 2) :
    helpers.wrap alternative = some alternative := by
  unfold wrap
  split
  next => exact absurd rfl h
  next => rfl

theorem wrap_pair_iff {first second : Symbol} {changed : Alternative} :
    helpers.wrap [first, second] = some changed ↔
      ∃ s t, helpers.wrapSymbol first = some s ∧ helpers.wrapSymbol second = some t ∧
        changed = [s, t] := by
  cases hfirst : helpers.wrapSymbol first <;> cases hsecond : helpers.wrapSymbol second <;>
    simp [wrap, hfirst, hsecond, eq_comm]

theorem isSome_wrap_iff (helpers : Helpers) (alternative : Alternative) :
    (helpers.wrap alternative).isSome = true ↔
      ∀ word ∈ terminalWords alternative, (helpers.wrapperFor word).isSome = true := by
  by_cases hlength : alternative.length = 2
  · obtain ⟨first, second, rfl⟩ := List.length_eq_two.mp hlength
    rw [wrap, isSome_mapM_iff]
    simp only [isSome_wrapSymbol_iff]
    constructor
    · intro h word hword
      obtain ⟨_, a, ha, rfl⟩ := mem_terminalWords.mp hword
      exact h _ ha a rfl
    · rintro h s hs a rfl
      exact h _ (mem_terminalWords.mpr ⟨rfl, a, hs, rfl⟩)
  · simp [wrap_of_length hlength, terminalWords, hlength]

theorem serves_wrap : Serves terminalWords wrapperFor makeForPair wrap where
  mem_of_mem_wanted hword s hs := by
    obtain ⟨_, a, ha, rfl⟩ := mem_terminalWords.mp hword
    rwa [List.mem_singleton.mp hs]
  answer_mono hall h := wrapperFor_mono hall h
  mem_names h := by
    obtain ⟨_, _, h⟩ := wrapperFor_eq_some_iff.mp h
    exact mem_names_of_name? h
  injective hv _ _ h h' := by
    obtain ⟨_, rfl, h⟩ := wrapperFor_eq_some_iff.mp h
    obtain ⟨_, rfl, h'⟩ := wrapperFor_eq_some_iff.mp h'
    exact hv.key_unique (mem_made_of_name? h) (mem_made_of_name? h')
  names_make {helpers alternative} := by
    intro a ha
    unfold makeForPair at ha ⊢
    split at ha
    next first second =>
      have hword {s : Symbol} {helpers' : Helpers} (hs : s ∈ [first, second])
          (h : helpers'.wrapperFor [s] = some a) : [s] ∈ terminalWords [first, second] := by
        obtain ⟨b, hb, _⟩ := wrapperFor_eq_some_iff.mp h
        obtain rfl := List.singleton_inj.mp hb
        exact mem_terminalWords.mpr ⟨rfl, b, hs, rfl⟩
      rcases exists_word_of_makeForTerminal ha with ha | hsecond
      · refine (exists_word_of_makeForTerminal ha).imp_right fun hfirst => ?_
        exact ⟨[first], hword (by simp) hfirst,
          wrapperFor_mono (made_prefix_makeForTerminal _ second) hfirst⟩
      · exact .inr ⟨[second], hword (by simp) hsecond, hsecond⟩
    next => exact .inl ha
  answered_make helpers alternative := by
    by_cases hlength : alternative.length = 2
    · obtain ⟨first, second, rfl⟩ := List.length_eq_two.mp hlength
      refine (isSome_wrapperFor_makeForPair helpers first second).imp_left fun h word hword => ?_
      obtain ⟨_, a, ha, rfl⟩ := mem_terminalWords.mp hword
      exact h a ha
    · exact .inl (by simp [terminalWords, hlength])
  change_isSome_iff := isSome_wrap_iff

end Helpers

end ContextFree

import ContextFree.Proofs.Declaration

/-!
Which declarations are accepted and what grammar they declare, told without the checks, and which
fault is found where a declaration has one or several.
-/

namespace ContextFree

namespace Declaration

section

variable (d : Declaration)

/-- The name is declared, as a nonterminal or as a terminal. -/
def IsDeclared (a : Name) : Prop := a ∈ d.nonterminals ∨ a ∈ d.terminals

/-- The symbol that a declared name stands for. -/
def symbolOf (a : Name) : Symbol := if a ∈ d.nonterminals then .nonterminal a else .terminal a

/-- The alternatives that the entries of a name declare, in order and without repeats. -/
def alternativesOf (a : Name) : List Alternative :=
  ((d.rules.filter (·.1 == a)).flatMap fun entry => entry.2.map (·.map d.symbolOf)).eraseDups

/-- All declared names can be written, none is of both kinds, and the start symbol is one of the
nonterminals. -/
structure SoundNames : Prop where
  bare : ∀ a ∈ d.nonterminals, isBareName a = true
  quotable : ∀ a ∈ d.terminals, isQuotableName a = true
  distinct : ∀ a ∈ d.nonterminals, a ∉ d.terminals
  start_mem : d.start ∈ d.nonterminals

/-- The name on the left of an entry is a nonterminal, and all names in its alternatives are
declared. -/
structure Fits (entry : Name × List (List Name)) : Prop where
  leftSide_mem : entry.1 ∈ d.nonterminals
  declared : ∀ names ∈ entry.2, ∀ a ∈ names, d.IsDeclared a

structure Coherent : Prop extends SoundNames d where
  fits : ∀ entry ∈ d.rules, d.Fits entry

/-- The fault that is found: of the names the first one, in the order of the fields of
`SoundNames`, and if there is none, one in the first entry that does not fit. There a name in an
alternative comes before the name on the left. -/
inductive FirstFault : GrammarError → Prop where
  | bare {a : Name} : FirstWith (isBareName · = false) d.nonterminals a → FirstFault (.unwritable a)
  | quotable {a : Name} : (∀ b ∈ d.nonterminals, isBareName b = true) →
      FirstWith (isQuotableName · = false) d.terminals a → FirstFault (.unwritable a)
  | distinct {a : Name} : (∀ b ∈ d.nonterminals, isBareName b = true) →
      (∀ b ∈ d.terminals, isQuotableName b = true) →
      FirstWith (· ∈ d.terminals) d.nonterminals a → FirstFault (.ofBothKinds a)
  | start : (∀ b ∈ d.nonterminals, isBareName b = true) →
      (∀ b ∈ d.terminals, isQuotableName b = true) → (∀ b ∈ d.nonterminals, b ∉ d.terminals) →
      d.start ∉ d.nonterminals → FirstFault (.undeclaredStart d.start)
  | declared {entry : Name × List (List Name)} {a : Name} : d.SoundNames →
      FirstWith (¬ d.Fits ·) d.rules entry → FirstWith (¬ d.IsDeclared ·) entry.2.flatten a →
      FirstFault (.undeclaredSymbol a)
  | leftSide {entry : Name × List (List Name)} : d.SoundNames →
      FirstWith (¬ d.Fits ·) d.rules entry → (∀ a ∈ entry.2.flatten, d.IsDeclared a) →
      entry.1 ∉ d.nonterminals → FirstFault (.undeclaredLeftSide entry.1)

end

variable {d : Declaration} {fault : GrammarError}

theorem nameFault?_eq_none_iff_soundNames : d.nameFault? = none ↔ d.SoundNames := by
  rw [nameFault?_eq_none_iff]
  constructor
  · rintro ⟨hbare, hquotable, hdistinct, hstart⟩
    exact ⟨hbare, hquotable, hdistinct, hstart⟩
  · intro h
    exact ⟨h.bare, h.quotable, h.distinct, h.start_mem⟩

theorem symbol_eq_ok_symbolOf {a : Name} (h : d.IsDeclared a) :
    d.symbol a = .ok (d.symbolOf a) := by
  rw [symbol, symbolOf]
  split_ifs with hn ht
  · rfl
  · rfl
  · exact absurd h (by simp [IsDeclared, hn, ht])

theorem symbol_eq_error_iff {a : Name} :
    d.symbol a = .error fault ↔ ¬ d.IsDeclared a ∧ fault = .undeclaredSymbol a := by
  rw [symbol, IsDeclared]
  split_ifs with hn ht
  · simp [hn]
  · simp [ht]
  · simp [hn, ht, eq_comm]

theorem fits_iff {entry : Name × List (List Name)} :
    d.Fits entry ↔ entry.1 ∈ d.nonterminals ∧ ∀ a ∈ entry.2.flatten, d.IsDeclared a := by
  constructor
  · intro h
    refine ⟨h.leftSide_mem, fun a ha => ?_⟩
    obtain ⟨names, hnames, ha⟩ := List.mem_flatten.mp ha
    exact h.declared names hnames a ha
  · rintro ⟨hleft, hdeclared⟩
    exact ⟨hleft, fun names hnames a ha => hdeclared a (List.mem_flatten.mpr ⟨names, hnames, ha⟩)⟩

/-- The names in the alternatives of an entry are read one by one, whatever alternative they are
in. -/
theorem mapM_symbol_eq_error_iff {xss : List (List Name)} :
    (xss.mapM fun names => names.mapM d.symbol) = .error fault ↔
      ∃ a, FirstWith (¬ d.IsDeclared ·) xss.flatten a ∧ fault = .undeclaredSymbol a := by
  rw [mapM_mapM_eq_error_iff, mapM_eq_error_iff]
  simp only [symbol_eq_error_iff, exists_and_left, exists_eq, and_true]
  refine exists_congr fun a => and_congr_right fun h => and_iff_right ?_
  obtain ⟨_, _, _, ha, _⟩ := h
  exact ha

theorem exists_undeclared_iff {names : List Name} :
    (∃ a, FirstWith (¬ d.IsDeclared ·) names a) ↔ ¬ ∀ a ∈ names, d.IsDeclared a := by
  simp [exists_firstWith_iff]

/-- Of an entry the names in the alternatives are looked at before the name on the left. -/
theorem rule_eq_error_iff {entry : Name × List (List Name)} :
    d.rule entry = .error fault ↔
      (∃ a, FirstWith (¬ d.IsDeclared ·) entry.2.flatten a ∧ fault = .undeclaredSymbol a) ∨
        (∀ a ∈ entry.2.flatten, d.IsDeclared a) ∧ entry.1 ∉ d.nonterminals ∧
          fault = .undeclaredLeftSide entry.1 := by
  rw [rule, bind_eq_error_iff, mapM_symbol_eq_error_iff]
  refine or_congr_right ⟨?_, ?_⟩
  · rintro ⟨alternatives, halternatives, hleft⟩
    -- an undeclared name would have stopped the reading before the left side was looked at
    have hdeclared : ∀ a ∈ entry.2.flatten, d.IsDeclared a := by
      by_contra hnot
      obtain ⟨a, ha⟩ := exists_undeclared_iff.mpr hnot
      cases halternatives.symm.trans (mapM_symbol_eq_error_iff.mpr ⟨a, ha, rfl⟩)
    split_ifs at hleft with hn
    · cases hleft
    · exact ⟨hdeclared, hn, (Except.error.inj hleft).symm⟩
  · rintro ⟨hdeclared, hn, rfl⟩
    cases hmap : entry.2.mapM fun names => names.mapM d.symbol with
    | ok alternatives => exact ⟨alternatives, rfl, if_neg hn⟩
    | error fault =>
      obtain ⟨a, ha, _⟩ := mapM_symbol_eq_error_iff.mp hmap
      exact absurd hdeclared (exists_undeclared_iff.mp ⟨a, ha⟩)

theorem exists_rule_eq_error_iff {entry : Name × List (List Name)} :
    (∃ fault, d.rule entry = .error fault) ↔ ¬ d.Fits entry := by
  rw [fits_iff]
  constructor
  · rintro ⟨fault, h⟩ ⟨hn, hdeclared⟩
    rcases rule_eq_error_iff.mp h with ⟨a, ha, _⟩ | ⟨_, hnot, _⟩
    · exact exists_undeclared_iff.mp ⟨a, ha⟩ hdeclared
    · exact hnot hn
  · intro h
    by_cases hdeclared : ∀ a ∈ entry.2.flatten, d.IsDeclared a
    · have hn : entry.1 ∉ d.nonterminals := fun hn => h ⟨hn, hdeclared⟩
      exact ⟨_, rule_eq_error_iff.mpr (.inr ⟨hdeclared, hn, rfl⟩)⟩
    · obtain ⟨a, ha⟩ := exists_undeclared_iff.mpr hdeclared
      exact ⟨_, rule_eq_error_iff.mpr (.inl ⟨a, ha, rfl⟩)⟩

/-- An entry that fits is read with the symbols that its names stand for. -/
theorem rule_of_fits {entry : Name × List (List Name)} (h : d.Fits entry) :
    d.rule entry = .ok ⟨entry.1, entry.2.map (·.map d.symbolOf)⟩ := by
  rw [rule_eq_ok_iff]
  refine ⟨h.leftSide_mem, rfl, ?_⟩
  rw [List.forall₂_map_right_iff, List.forall₂_same]
  intro names hnames
  rw [List.forall₂_map_right_iff, List.forall₂_same]
  exact fun a ha => symbol_eq_ok_symbolOf (h.declared names hnames a ha)

/-- Reading the entries stops at the first one that does not fit. -/
theorem mapM_rule_eq_error_iff :
    d.rules.mapM d.rule = .error fault ↔
      ∃ entry, FirstWith (¬ d.Fits ·) d.rules entry ∧ d.rule entry = .error fault := by
  rw [mapM_eq_error_iff]
  simp only [exists_rule_eq_error_iff]

theorem toGrammar_eq_error_iff :
    d.toGrammar = .error fault ↔
      d.nameFault? = some fault ∨ d.SoundNames ∧ d.rules.mapM d.rule = .error fault := by
  rw [← nameFault?_eq_none_iff_soundNames, toGrammar]
  cases d.nameFault? with
  | some fault' => simp
  | none => simp [bind_eq_error_iff, pure, Except.pure]

/-- The faults of the names themselves, in the order of the checks. -/
theorem nameFault?_eq_some_iff :
    d.nameFault? = some fault ↔
      (∃ a, FirstWith (isBareName · = false) d.nonterminals a ∧ .unwritable a = fault) ∨
        (∀ a ∈ d.nonterminals, isBareName a = true) ∧
          ((∃ a, FirstWith (isQuotableName · = false) d.terminals a ∧ .unwritable a = fault) ∨
            (∀ a ∈ d.terminals, isQuotableName a = true) ∧
              ((∃ a, FirstWith (· ∈ d.terminals) d.nonterminals a ∧ .ofBothKinds a = fault) ∨
                (∀ a ∈ d.nonterminals, a ∉ d.terminals) ∧
                  d.start ∉ d.nonterminals ∧ .undeclaredStart d.start = fault)) := by
  simp only [nameFault?, Option.or_eq_some_iff, Option.map_eq_some_iff, Option.map_eq_none_iff,
    find?_eq_some_iff_firstWith, List.find?_eq_none, Bool.not_eq_true', Bool.not_eq_false,
    List.contains_eq_mem, decide_eq_true_eq]
  split_ifs with hstart <;> simp [hstart]

/-- A declaration is rejected for the first fault that it has. -/
theorem toGrammar_eq_error_iff_firstFault : d.toGrammar = .error fault ↔ d.FirstFault fault := by
  rw [toGrammar_eq_error_iff, nameFault?_eq_some_iff, mapM_rule_eq_error_iff]
  constructor
  · rintro (h | ⟨hnames, entry, hentry, h⟩)
    · rcases h with ⟨a, ha, rfl⟩ | ⟨hbare, ⟨a, ha, rfl⟩ | ⟨hquotable, h⟩⟩
      · exact .bare ha
      · exact .quotable hbare ha
      · rcases h with ⟨a, ha, rfl⟩ | ⟨hdistinct, hstart, rfl⟩
        · exact .distinct hbare hquotable ha
        · exact .start hbare hquotable hdistinct hstart
    · rcases rule_eq_error_iff.mp h with ⟨a, ha, rfl⟩ | ⟨hdeclared, hn, rfl⟩
      · exact .declared hnames hentry ha
      · exact .leftSide hnames hentry hdeclared hn
  · intro h
    cases h with
    | bare ha => exact .inl (.inl ⟨_, ha, rfl⟩)
    | quotable hbare ha => exact .inl (.inr ⟨hbare, .inl ⟨_, ha, rfl⟩⟩)
    | distinct hbare hquotable ha =>
      exact .inl (.inr ⟨hbare, .inr ⟨hquotable, .inl ⟨_, ha, rfl⟩⟩⟩)
    | start hbare hquotable hdistinct hstart =>
      exact .inl (.inr ⟨hbare, .inr ⟨hquotable, .inr ⟨hdistinct, hstart, rfl⟩⟩⟩)
    | declared hnames hentry ha =>
      exact .inr ⟨hnames, _, hentry, rule_eq_error_iff.mpr (.inl ⟨_, ha, rfl⟩)⟩
    | leftSide hnames hentry hdeclared hn =>
      exact .inr ⟨hnames, _, hentry, rule_eq_error_iff.mpr (.inr ⟨hdeclared, hn, rfl⟩)⟩

/-- A declaration is accepted if the names are sound and every entry fits, and the entries are then
read as they stand. -/
theorem toGrammar_eq_ok_iff_coherent {g : Grammar} :
    d.toGrammar = .ok g ↔
      d.Coherent ∧
        g = d.grammar (d.rules.map fun entry => ⟨entry.1, entry.2.map (·.map d.symbolOf)⟩) := by
  rw [toGrammar_eq_ok_iff, nameFault?_eq_none_iff_soundNames]
  constructor
  · rintro ⟨hnames, entries, hentries, rfl⟩
    have hfits : ∀ entry ∈ d.rules, d.Fits entry := by
      intro entry hentry
      obtain ⟨r, _, hr⟩ := Forall₂.exists_right hentries hentry
      by_contra hnot
      obtain ⟨fault, hfault⟩ := exists_rule_eq_error_iff.mpr hnot
      cases hr.symm.trans hfault
    rw [forall₂_eq_ok_iff fun entry hentry => rule_of_fits (hfits entry hentry)] at hentries
    exact ⟨⟨hnames, hfits⟩, by rw [hentries]⟩
  · rintro ⟨h, rfl⟩
    refine ⟨h.toSoundNames, _, ?_, rfl⟩
    rw [forall₂_eq_ok_iff fun entry hentry => rule_of_fits (h.fits entry hentry)]

theorem collect_map_eq_alternativesOf (a : Name) :
    collect (d.rules.map fun entry => ⟨entry.1, entry.2.map (·.map d.symbolOf)⟩) a =
      d.alternativesOf a := by
  rw [collect, List.filter_map, List.flatMap_map]
  rfl

/-- A declaration is accepted exactly if it is coherent. The grammar has the declared names without
repeats, and each nonterminal has the alternatives that its entries declare. All other declarations
are rejected for their first fault. -/
theorem toGrammar_accepts_coherent (d : Declaration) :
    ((∃ g, d.toGrammar = .ok g) ↔ d.Coherent) ∧
    (∀ g, d.toGrammar = .ok g →
      g.nonterminals = d.nonterminals.eraseDups ∧ g.terminals = d.terminals.eraseDups ∧
        g.start = d.start ∧ ∀ a, g.alternatives? a =
          if a ∈ d.nonterminals then some (d.alternativesOf a) else none) ∧
    ∀ fault, d.toGrammar = .error fault ↔ d.FirstFault fault := by
  simp only [toGrammar_eq_ok_iff_coherent]
  refine ⟨?_, ?_, fun fault => toGrammar_eq_error_iff_firstFault⟩
  · constructor
    · rintro ⟨g, h, _⟩
      exact h
    · intro h
      exact ⟨_, h, rfl⟩
  · rintro g ⟨_, rfl⟩
    refine ⟨rfl, rfl, rfl, fun a => ?_⟩
    rw [Grammar.alternatives?_of_rules rfl, collect_map_eq_alternativesOf]
    simp only [List.mem_eraseDups]

/-- Two entries for `S`, one of which repeats an alternative, and none for `B`. -/
def scattered : Declaration where
  nonterminals := ["S", "A", "S", "B"]
  terminals := ["a", "a"]
  rules := [("S", [["a", "A"], ["B"]]), ("A", [[], ["A", "S"]]), ("S", [["B"], ["a"], []])]
  start := "S"

/-- The second entry does not fit, for two reasons, nor does the third one. -/
def slipped : Declaration where
  nonterminals := ["S", "A"]
  terminals := ["a"]
  rules := [("S", [["a"], []]), ("b", [["A"], ["a", "c", "d"]]), ("e", [])]
  start := "S"

theorem toGrammar_accepts_scattered :
    (∃ g, scattered.toGrammar = .ok g ∧ scattered.Coherent ∧
      g.nonterminals = ["S", "A", "B"] ∧ g.terminals = ["a"] ∧
      g.alternatives? "S" = some
        [[.terminal "a", .nonterminal "A"], [.nonterminal "B"], [.terminal "a"], []] ∧
      g.alternatives? "B" = some []) ∧
    slipped.toGrammar = .error (.undeclaredSymbol "c") ∧
      slipped.FirstFault (.undeclaredSymbol "c") := by
  obtain ⟨haccepted, hgrammar, _⟩ := toGrammar_accepts_coherent scattered
  obtain ⟨g, hg⟩ : ∃ g, scattered.toGrammar = .ok g := ⟨_, rfl⟩
  obtain ⟨hnonterminals, hterminals, _, halternatives⟩ := hgrammar g hg
  have hslipped : slipped.toGrammar = .error (.undeclaredSymbol "c") := rfl
  refine ⟨⟨g, hg, haccepted.mp ⟨g, hg⟩, hnonterminals, hterminals, ?_, ?_⟩, hslipped, ?_⟩
  · rw [halternatives]
    decide
  · rw [halternatives]
    decide
  · exact ((toGrammar_accepts_coherent slipped).2.2 _).mp hslipped

end Declaration

end ContextFree

import ContextFree.Proofs.Demand
import ContextFree.Proofs.Nesting
import ContextFree.Proofs.Representation

/-!
Which names cutting into pairs takes. A helper stands for a word of the grammar's own symbols: in
the first round for the beginning of a long alternative, in the second one for a terminal that
stands beside another symbol. So the free names are taken in their order, one for each of these
words, and all of them if there are too few.
-/

namespace ContextFree

open Grammar

theorem Helpers.terminal_mem_of_cut {helpers : Helpers} {word key : List Symbol} {a : Name}
    (h : helpers.cut word = some key) (ha : .terminal a ∈ key) : .terminal a ∈ word := by
  rcases length_cases word with hshort | ⟨before, last, rfl, hlong, _⟩
  · rw [cut_of_length hshort] at h
    rwa [Option.some.inj h]
  · rw [cut_concat hlong] at h
    obtain ⟨b, _, rfl⟩ := Option.map_eq_some_iff.mp h
    have hlast : Symbol.terminal a = last := by simpa using ha
    simp [hlast]

namespace Grammar

variable {g : Grammar}

/-- The terminals that stand beside another symbol in some alternative, each of them once. -/
def pairedTerminals (g : Grammar) : List Name :=
  (terminalsIn ((g.rules.flatMap Rule.alternatives).filter (2 ≤ ·.length))).eraseDups

/-- The words that helpers are made for: the proper beginnings of alternatives, from two symbols on,
and the terminals that stand beside another symbol. -/
def helperWords (g : Grammar) : List (List Symbol) :=
  g.demand Helpers.beginnings ++ g.pairedTerminals.map fun a => [.terminal a]

theorem mem_pairedTerminals_iff (hg : g.WellFormed) {a : Name} :
    a ∈ g.pairedTerminals ↔
      ∃ b, ∃ alternative ∈ g.alternatives b,
        2 ≤ alternative.length ∧ .terminal a ∈ alternative := by
  simp only [pairedTerminals, List.mem_eraseDups, mem_terminalsIn, List.mem_filter,
    List.mem_flatMap, decide_eq_true_eq]
  constructor
  · rintro ⟨alternative, ⟨⟨r, hr, hmem⟩, hlong⟩, ha⟩
    exact ⟨r.name, alternative, by rwa [alternatives_name hg.nodup_ruleNames hr], hlong, ha⟩
  · rintro ⟨b, alternative, hmem, hlong, ha⟩
    obtain ⟨r, hr, _, hmem⟩ := exists_rule hmem
    exact ⟨alternative, ⟨⟨r, hr, hmem⟩, hlong⟩, ha⟩

section

variable {names : List Name} (hg : g.WellFormed) (hpairs : g.cutLong.result = .ok names)
include hg hpairs

/-- Each symbol of a word that was cut stands in a pair: in what is left of the word, or in what is
left of one of its beginnings. -/
theorem exists_pair_of_mem {word key : List Symbol} {owner : Name}
    (hcut : g.pairs.cut word = some key) (hkey : key ∈ g.cutLong.grammar.alternatives owner)
    (hlong : 2 ≤ word.length) {s : Symbol} (hs : s ∈ word) :
    ∃ a, ∃ pair ∈ g.cutLong.grammar.alternatives a, pair.length = 2 ∧ s ∈ pair := by
  induction word using List.reverseRecOn generalizing key owner with
  | nil => cases hs
  | append_singleton before last ih =>
    by_cases hbefore : 2 ≤ before.length
    · rw [Helpers.cut_concat hbefore] at hcut
      obtain ⟨b, hb, rfl⟩ := Option.map_eq_some_iff.mp hcut
      rcases List.mem_append.mp hs with hs | hs
      · obtain ⟨key, hkey, hentry⟩ := Helpers.exists_key_of_pairFor hb
        have hmem : key ∈ g.cutLong.grammar.alternatives b :=
          (mem_alternatives_round_of_made Helpers.fits_cut hg hpairs hentry).mpr rfl
        exact ih hkey hmem hbefore hs
      · exact ⟨owner, _, hkey, rfl, by simp [List.mem_singleton.mp hs]⟩
    · rw [List.length_append, List.length_singleton] at hlong
      have hlength : (before ++ [last]).length = 2 := by
        rw [List.length_append, List.length_singleton]
        omega
      rw [Helpers.cut_of_length hlength.le] at hcut
      obtain rfl := Option.some.inj hcut
      exact ⟨owner, _, hkey, hlength, hs⟩

/-- The terminals in the pairs that the first round leaves are those that stood beside another
symbol before. -/
theorem mem_demand_terminalWords_cutLong_iff {word : List Symbol} :
    word ∈ g.cutLong.grammar.demand Helpers.terminalWords ↔
      ∃ a ∈ g.pairedTerminals, word = [.terminal a] := by
  rw [mem_demand_iff hg.cutLong]
  constructor
  · rintro ⟨owner, pair, hpair, hword⟩
    obtain ⟨hlength, a, ha, rfl⟩ := Helpers.mem_terminalWords.mp hword
    refine ⟨a, (mem_pairedTerminals_iff hg).mpr ?_, rfl⟩
    rcases (mem_alternatives_round_iff Helpers.fits_cut hg hpairs).mp hpair with
      ⟨old, hold, hcut⟩ | hentry
    · refine ⟨owner, old, hold, ?_, Helpers.terminal_mem_of_cut hcut ha⟩
      rcases Helpers.cut_eq_some hcut with ⟨hshort, rfl⟩ | ⟨hlong, _⟩
      · omega
      · exact hlong
    · -- a helper has what is left of a beginning
      obtain ⟨before, hbefore, hanswer⟩ := (mem_names_gather_iff Helpers.serves_cut
        Helpers.linked_cut).mp (List.mem_map_of_mem hentry)
      obtain ⟨key, hcut, hentry'⟩ := Helpers.exists_key_of_pairFor hanswer
      obtain rfl := (valid_gather Helpers.fits_cut hg).key_unique hentry hentry'
      obtain ⟨b, alternative, hmem, hbefore⟩ := (mem_demand_iff hg).mp hbefore
      obtain ⟨hbegins, hlong, _⟩ := Helpers.mem_beginnings.mp hbefore
      exact ⟨b, alternative, hmem, hlong.trans hbegins.length_le,
        hbegins.subset (Helpers.terminal_mem_of_cut hcut ha)⟩
  · rintro ⟨a, ha, rfl⟩
    obtain ⟨b, alternative, hmem, hlong, ha⟩ := (mem_pairedTerminals_iff hg).mp ha
    obtain ⟨key, hkey, hcut⟩ := exists_mem_changed Helpers.fits_cut hg hpairs hmem
    obtain ⟨owner, pair, hpair, hlength, ha⟩ := exists_pair_of_mem hg hpairs hcut hkey hlong ha
    exact ⟨owner, pair, hpair, Helpers.mem_terminalWords.mpr ⟨hlength, a, ha, rfl⟩⟩

theorem length_demand_terminalWords_cutLong :
    (g.cutLong.grammar.demand Helpers.terminalWords).length = g.pairedTerminals.length := by
  have hinjective : Function.Injective fun a : Name => [Symbol.terminal a] := by
    intro a b h
    simpa using h
  have hnodup : (g.pairedTerminals.map fun a => [Symbol.terminal a]).Nodup :=
    (nodup_eraseDups _).map hinjective
  have hperm : (g.cutLong.grammar.demand Helpers.terminalWords).Perm
      (g.pairedTerminals.map fun a => [Symbol.terminal a]) := by
    rw [List.perm_ext_iff_of_nodup (nodup_demand _ _) hnodup]
    intro word
    simp only [mem_demand_terminalWords_cutLong_iff hg hpairs, List.mem_map, eq_comm]
  rw [hperm.length_eq, List.length_map]

end

/-- Nonterminals that are added are no longer free. -/
theorem freeNames_of_append {k : Grammar} {taken : List Name}
    (hterminals : k.terminals = g.terminals)
    (hnonterminals : k.nonterminals = g.nonterminals ++ taken) :
    k.freeNames = g.freeNames.filter (!taken.contains ·) := by
  rw [freeNames, freeNames, List.filter_filter, names, names, hterminals, hnonterminals]
  apply List.filter_congr
  intro a _
  rw [Bool.eq_iff_iff]
  simp only [List.mem_append, Bool.not_eq_true', Bool.and_eq_true, decide_eq_false_iff_not,
    List.contains_eq_mem]
  tauto

section

variable {Key : Alternative → Prop} {wanted : Alternative → List (List Symbol)}
  {answer : Helpers → List Symbol → Option Name} {make : Helpers → Alternative → Helpers}
  {change : Helpers → Alternative → Option Alternative}
  (hs : Helpers.Serves wanted answer make change) (hl : Helpers.Linked make change)
  (hf : Helpers.Fits Key make change) (hg : g.WellFormed)
include hs hl hf hg

/-- Whether a round goes through or not, it adds the first free names, one for each word as far as
there are so many. -/
theorem nonterminals_round :
    (g.round make change).grammar.nonterminals =
      g.nonterminals ++ g.freeNames.take (g.demand wanted).length := by
  rw [← names_gather hs hl hf hg]
  rfl

/-- The names behind those stay free. -/
theorem freeNames_round :
    (g.round make change).grammar.freeNames = g.freeNames.drop (g.demand wanted).length := by
  have hsplit := List.take_append_drop (g.demand wanted).length g.freeNames
  have hnodup := g.nodup_freeNames
  have hless := freeNames_of_append (g := g) (k := (g.round make change).grammar) rfl
    (nonterminals_round hs hl hf hg)
  -- the names are listed once, so the taken ones are not among those behind them
  generalize g.freeNames.take (g.demand wanted).length = taken at hless hsplit
  generalize g.freeNames.drop (g.demand wanted).length = left at hsplit ⊢
  rw [← hsplit, List.nodup_append] at hnodup
  have htaken : taken.filter (!taken.contains ·) = [] := by simp
  have hleft : left.filter (!taken.contains ·) = left := by
    rw [List.filter_eq_self]
    intro a ha
    have hnew : a ∉ taken := fun h => hnodup.2.2 a h a ha rfl
    simpa using hnew
  rw [hless, ← hsplit, List.filter_append, htaken, hleft, List.nil_append]

end

theorem length_helperWords (g : Grammar) :
    g.helperWords.length = (g.demand Helpers.beginnings).length + g.pairedTerminals.length := by
  rw [helperWords, List.length_append, List.length_map]

theorem result_cutLong (hg : g.WellFormed) :
    g.cutLong.result =
      if (g.demand Helpers.beginnings).length ≤ g.freeNames.length then
        .ok (g.freeNames.take (g.demand Helpers.beginnings).length)
      else .error .outOfNames :=
  result_round Helpers.serves_cut Helpers.linked_cut Helpers.fits_cut hg

theorem nonterminals_cutLong (hg : g.WellFormed) :
    g.cutLong.grammar.nonterminals =
      g.nonterminals ++ g.freeNames.take (g.demand Helpers.beginnings).length :=
  nonterminals_round Helpers.serves_cut Helpers.linked_cut Helpers.fits_cut hg

theorem freeNames_cutLong (hg : g.WellFormed) :
    g.cutLong.grammar.freeNames = g.freeNames.drop (g.demand Helpers.beginnings).length :=
  freeNames_round Helpers.serves_cut Helpers.linked_cut Helpers.fits_cut hg

/-- The second round goes on in the list of free names where the first one stopped. -/
theorem take_freeNames_cutLong (hg : g.WellFormed) :
    g.freeNames.take (g.demand Helpers.beginnings).length ++
        g.cutLong.grammar.freeNames.take g.pairedTerminals.length =
      g.freeNames.take g.helperWords.length := by
  rw [freeNames_cutLong hg, length_helperWords, List.take_add]

theorem eq_take_of_cutLong (hg : g.WellFormed) {pairs : List Name}
    (hpairs : g.cutLong.result = .ok pairs) :
    (g.demand Helpers.beginnings).length ≤ g.freeNames.length ∧
      pairs = g.freeNames.take (g.demand Helpers.beginnings).length := by
  rw [result_cutLong hg] at hpairs
  split_ifs at hpairs with hfew
  exact ⟨hfew, (Except.ok.inj hpairs).symm⟩

theorem eq_outOfNames_of_cutLong (hg : g.WellFormed) {fault : GrammarError}
    (hfault : g.cutLong.result = .error fault) :
    g.freeNames.length < (g.demand Helpers.beginnings).length ∧ fault = .outOfNames := by
  rw [result_cutLong hg] at hfault
  split_ifs at hfault with hfew
  exact ⟨Nat.lt_of_not_le hfew, (Except.error.inj hfault).symm⟩

/-- Both rounds together go through exactly if there is a free name for every word, and take the
first ones then. -/
theorem result_binarize (hg : g.WellFormed) :
    g.binarize.result =
      if g.helperWords.length ≤ g.freeNames.length then
        .ok (g.freeNames.take g.helperWords.length)
      else .error .outOfNames := by
  have hcount := g.length_helperWords
  rcases g.binarize_cases with ⟨fault, hfault, heq⟩ | ⟨pairs, hpairs, heq⟩
  · obtain ⟨hmany, rfl⟩ := eq_outOfNames_of_cutLong hg hfault
    rw [heq, if_neg (by omega)]
  · obtain ⟨hfew, rfl⟩ := eq_take_of_cutLong hg hpairs
    have hsecond : g.cutLong.grammar.wrapTerminals.result = _ :=
      result_round Helpers.serves_wrap Helpers.linked_wrap Helpers.fits_wrap hg.cutLong
    -- the second round has to do with the names that the first one left
    have hleft : g.cutLong.grammar.freeNames.length =
        g.freeNames.length - (g.demand Helpers.beginnings).length := by
      rw [freeNames_cutLong hg, List.length_drop]
    rw [heq, hsecond, length_demand_terminalWords_cutLong hg hpairs, hleft,
      ← take_freeNames_cutLong hg]
    split_ifs with hwrap hall hall
    · rfl
    · omega
    · omega
    · rfl

theorem eq_take_of_binarize (hg : g.WellFormed) {names : List Name}
    (h : g.binarize.result = .ok names) : names = g.freeNames.take g.helperWords.length := by
  rw [result_binarize hg] at h
  split_ifs at h
  exact (Except.ok.inj h).symm

/-- Whether cutting goes through or not, the names that it takes stand behind the others. -/
theorem nonterminals_binarize (hg : g.WellFormed) :
    g.binarize.grammar.nonterminals =
      g.nonterminals ++ g.freeNames.take g.helperWords.length := by
  rcases g.binarize_cases with ⟨fault, hfault, heq⟩ | ⟨pairs, hpairs, heq⟩
  · have hmany := (eq_outOfNames_of_cutLong hg hfault).1
    have hcount := g.length_helperWords
    rw [heq, nonterminals_cutLong hg, List.take_of_length_le (by omega),
      List.take_of_length_le (by omega)]
  · have hsecond : g.cutLong.grammar.wrapTerminals.grammar.nonterminals = _ :=
      nonterminals_round Helpers.serves_wrap Helpers.linked_wrap Helpers.fits_wrap hg.cutLong
    rw [heq, hsecond, length_demand_terminalWords_cutLong hg hpairs, nonterminals_cutLong hg,
      List.append_assoc, take_freeNames_cutLong hg]

theorem length_pairedTerminals_le (hg : g.WellFormed) :
    g.pairedTerminals.length ≤ g.terminals.length := by
  refine (List.Nodup.subperm (nodup_eraseDups _) fun a ha => ?_).length_le
  obtain ⟨b, alternative, hmem, _, ha⟩ := (mem_pairedTerminals_iff hg).mp ha
  exact hg.hasSymbol_of_mem hmem ha

/-- Cutting into pairs goes through if the names that it may need are few. -/
theorem exists_binarize_of_few (hg : g.WellFormed)
    (hfew : (g.demand Helpers.beginnings).length + g.nonterminals.length +
      2 * g.terminals.length ≤ spareNames.length) :
    ∃ names, g.binarize.result = .ok names := by
  have hfree := g.length_spareNames_le
  have hterminals := length_pairedTerminals_le hg
  have hcount := g.length_helperWords
  rw [names, List.length_append] at hfree
  rw [result_binarize hg, if_pos (by omega)]
  exact ⟨_, rfl⟩

/-- Cutting into pairs goes through exactly if there are as many free names as words that want a
helper. It takes the first ones then, which stand behind the other nonterminals in their order, and
else it takes all of them before it gives up. -/
theorem binarize_takes_names (hg : g.WellFormed) :
    ((∃ names, g.binarize.result = .ok names) ↔ g.helperWords.length ≤ g.freeNames.length) ∧
    (∀ names, g.binarize.result = .ok names →
      names = g.freeNames.take g.helperWords.length ∧
        g.binarize.grammar.nonterminals = g.nonterminals ++ names ∧
        g.binarize.grammar.ruleNames = g.ruleNames ++ names) ∧
    (g.freeNames.length < g.helperWords.length →
      g.binarize.result = .error .outOfNames ∧
        g.binarize.grammar.nonterminals = g.nonterminals ++ g.freeNames ∧
        g.binarize.grammar.ruleNames = g.ruleNames ++ g.freeNames) := by
  have hresult := result_binarize hg
  have hnonterminals := nonterminals_binarize hg
  have hruleNames : g.binarize.grammar.ruleNames =
      g.ruleNames ++ g.freeNames.take g.helperWords.length := by
    rw [hg.binarize.ruleNames_eq, hg.ruleNames_eq, hnonterminals]
  refine ⟨?_, fun names h => ?_, fun hmany => ?_⟩
  · rw [hresult]
    split_ifs with hfew <;> simp [hfew]
  · rw [← eq_take_of_binarize hg h] at hnonterminals hruleNames
    exact ⟨eq_take_of_binarize hg h, hnonterminals, hruleNames⟩
  · rw [List.take_of_length_le hmany.le] at hnonterminals hruleNames
    exact ⟨hresult.trans (if_neg (Nat.not_le.mpr hmany)), hnonterminals, hruleNames⟩

/-- The spare names are all taken, and their alternatives want helpers. -/
def crowded : Grammar where
  nonterminals := spareNames
  terminals := []
  rules := spareNames.map fun a => ⟨a, [[.nonterminal a, .nonterminal a, .nonterminal a]]⟩
  start := "S"

theorem wellFormed_crowded : crowded.WellFormed where
  ruleNames_eq := by simp [ruleNames, crowded, Function.comp_def]
  nodup_nonterminals := nodup_spareNames
  nodup_terminals := List.nodup_nil
  start_mem := mem_spareNames.mpr ⟨'S', by decide, .inl rfl⟩
  not_mem_terminals := by simp [crowded]
  hasSymbol := by
    intro r hr alternative halternative s hs
    obtain ⟨a, ha, rfl⟩ := List.mem_map.mp hr
    obtain rfl := List.mem_singleton.mp halternative
    obtain rfl : s = .nonterminal a := by simpa using hs
    exact ha
  nodup_alternatives := by
    intro r hr
    obtain ⟨a, _, rfl⟩ := List.mem_map.mp hr
    exact List.nodup_singleton _
  bare_nonterminal _ := isBareName_of_mem_spareNames
  quotable_terminal := by simp [crowded]

theorem freeNames_crowded : crowded.freeNames = [] := by
  rw [List.eq_nil_iff_forall_not_mem]
  intro a ha
  obtain ⟨hspare, hfree, _⟩ := mem_freeNames.mp ha
  exact hfree hspare

theorem length_helperWords_crowded_pos : 0 < crowded.helperWords.length := by
  have hmem : [.nonterminal "S", .nonterminal "S", .nonterminal "S"] ∈ crowded.alternatives "S" :=
    (mem_alternatives wellFormed_crowded.nodup_ruleNames).mpr
      ⟨_, List.mem_map.mpr ⟨"S", wellFormed_crowded.start_mem, rfl⟩, rfl, List.mem_singleton_self _⟩
  have hword : [.nonterminal "S", .nonterminal "S"] ∈ crowded.demand Helpers.beginnings :=
    (mem_demand_iff wellFormed_crowded).mpr ⟨"S", _, hmem, by decide⟩
  exact List.length_pos_of_mem (List.mem_append_left _ hword)

/-- Three words want a helper in `mixed`, and one in `crowded`, where no name is free. -/
theorem binarize_mixed_takes_names :
    mixed.WellFormed ∧ mixed.binarize.result = .ok ["0", "1", "2"] ∧
      mixed.binarize.grammar.ruleNames = ["S", "A", "N", "U", "0", "1", "2"] ∧
      crowded.WellFormed ∧ crowded.binarize.result = .error .outOfNames ∧
      crowded.binarize.grammar.nonterminals = spareNames := by
  have hmixed := mixed_built.wellFormed
  have hfree : mixed.freeNames.take 3 = ["0", "1", "2"] := by rfl
  have hcount : mixed.helperWords.length = 3 := by decide
  have hfew : 3 ≤ mixed.freeNames.length := by
    have hlength : min 3 mixed.freeNames.length = 3 := by
      rw [← List.length_take, hfree]
      rfl
    omega
  obtain ⟨hiff, hnames, _⟩ := binarize_takes_names hmixed
  obtain ⟨names, hresult⟩ := hiff.mpr (hcount ▸ hfew)
  obtain ⟨rfl, _, hruleNames⟩ := hnames names hresult
  rw [hcount, hfree] at hresult hruleNames
  have hmany : crowded.freeNames.length < crowded.helperWords.length := by
    rw [freeNames_crowded]
    exact length_helperWords_crowded_pos
  obtain ⟨herror, hnonterminals, _⟩ := (binarize_takes_names wellFormed_crowded).2.2 hmany
  rw [freeNames_crowded, List.append_nil] at hnonterminals
  exact ⟨hmixed, hresult, hruleNames, wellFormed_crowded, herror, hnonterminals⟩

end Grammar

end ContextFree

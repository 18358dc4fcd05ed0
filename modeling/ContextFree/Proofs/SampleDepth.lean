import ContextFree.Proofs.EnoughDepth
import ContextFree.Proofs.HelperCount
import ContextFree.Proofs.Nesting
import ContextFree.Proofs.Output
import ContextFree.Proofs.Sampling

/-!
Which sentences of a converted grammar can be drawn within the depth of the command line. Helpers
hang below each other, so long alternatives need a depth that grows with their length.
-/

namespace ContextFree

namespace Grammar

variable {g : Grammar} {report : Report}

/-- Where alternatives have two symbols at most, nesting them changes nothing. -/
theorem DerivesNested.derivesWithin_of_length
    (hshort : ∀ a, ∀ alternative ∈ g.alternatives a, alternative.length ≤ 2) {d : Nat}
    {xs : List Symbol} {w : List Name} (h : DerivesNested g d xs w) (hxs : xs.length ≤ 2) :
    DerivesWithin g d xs w := by
  induction h with
  | nil => exact .nil
  | terminal => exact .terminal .nil
  | @nonterminal d a alternative w ha _ ih =>
    exact derivesWithin_nonterminal_iff.mpr ⟨d, rfl, alternative, ha, ih (hshort a _ ha)⟩
  | pair _ _ ihu ihw =>
    exact derivesWithin_cons_iff.mpr ⟨_, _, rfl, ihu (by simp), ihw (by simp)⟩
  | more hlong _ _ _ _ =>
    rw [List.length_append, List.length_singleton] at hxs
    omega

theorem DerivesWithin.derivesNested_of_isNormal (hnormal : g.isNormal = true) {d : Nat} {a : Name}
    {w : List Name} (h : DerivesWithin g d [.nonterminal a] w) :
    DerivesNested g d [.nonterminal a] w := by
  induction d generalizing a w with
  | zero =>
    obtain ⟨e, he, _⟩ := derivesWithin_nonterminal_iff.mp h
    cases he
  | succ d ih =>
    obtain ⟨e, he, alternative, ha, hw⟩ := derivesWithin_nonterminal_iff.mp h
    obtain rfl := Nat.succ.inj he
    refine .nonterminal ha ?_
    rcases shape_of_isNormal hnormal ha with ⟨b, rfl⟩ | ⟨b, c, rfl⟩
    · rw [derives_terminal_iff.mp hw.derives]
      exact .terminal
    · obtain ⟨u, v, rfl, hu, hv⟩ := derivesWithin_cons_iff.mp hw
      obtain ⟨k, rfl, _⟩ := derivesWithin_nonterminal_iff.mp hu
      exact .pair (ih hu) (ih hv)

/-- The grammar whose alternatives a conversion cuts into pairs: what the first four stages leave,
or the grammar itself if it is in normal form. -/
def uncut (g : Grammar) : Grammar := if g.isNormal then g else g.pruned

theorem uncut_of_isNormal (hnormal : g.isNormal = true) : g.uncut = g := if_pos hnormal

theorem uncut_eq_pruned (hnormal : g.isNormal = false) : g.uncut = g.pruned := by
  rw [uncut, if_neg (by simp [hnormal])]

/-- The sentences of a converted grammar at their depths, told by the grammar before the cutting. -/
theorem derivesWithin_convert_iff (hg : g.WellFormed) (h : g.convert.result = .ok report) {d : Nat}
    {w : List Name} :
    DerivesWithin g.convert.grammar d [.nonterminal g.start] w ↔
      DerivesNested g.uncut d [.nonterminal g.start] w := by
  cases hnormal : g.isNormal with
  | true =>
    rw [convert_of_isNormal hnormal, uncut_of_isNormal hnormal]
    have hshort : ∀ a, ∀ alternative ∈ g.alternatives a, alternative.length ≤ 2 := by
      intro a alternative ha
      rcases shape_of_isNormal hnormal ha with ⟨b, rfl⟩ | ⟨b, c, rfl⟩ <;> simp
    exact ⟨fun hw => hw.derivesNested_of_isNormal hnormal, fun hw =>
      hw.derivesWithin_of_length hshort (by simp)⟩
  | false =>
    obtain ⟨helpers, hbinary, _⟩ := exists_helpers_of_convert hnormal h
    have hstart : g.start ∈ g.pruned.nonterminals :=
      (keeps_pruned g).start_eq ▸ hg.pruned.start_mem
    rw [convert_grammar hnormal, uncut_eq_pruned hnormal]
    exact derivesWithin_binarize_iff hg.pruned hbinary hstart

/-- A level for each nonterminal of the converted grammar is enough for a sentence of it. -/
theorem exists_derivesWithin_convert (hg : g.WellFormed) (h : g.convert.result = .ok report)
    (hsentence : ∃ w, g.Generates g.start w ∧ w ≠ []) :
    ∃ w, DerivesWithin g.convert.grammar g.convert.grammar.nonterminals.length
      [.nonterminal g.start] w := by
  have hconvert := (keeps_convert g).wellFormed hg
  obtain ⟨hreached, hproductive⟩ := start_notMem_report h
  have hgenerates : ∃ w, g.convert.grammar.Generates g.start w := by
    simpa only [generates_convert_iff hg h hg.start_mem hreached hproductive] using hsentence
  exact (mem_productive_iff_yieldsWithin hconvert).mp
    ((mem_productive_iff hconvert.nodup_ruleNames).mpr hgenerates)

/-- What can be sampled is what can be derived within the depth. -/
theorem sampled_iff {ι σ : Type} [ChoiceSource σ] {sources : ι → σ}
    (hforced : ChoiceSource.ForcesAll sources)
    (hfew : ∀ r ∈ g.rules, r.alternatives.length < Words.wordCount) {limit : Nat} {w : List Name} :
    (∃ i s, g.sample limit (sources i) = .ok w s) ↔
      DerivesWithin g limit [.nonterminal g.start] w := by
  constructor
  · rintro ⟨i, s, h⟩
    exact derivesWithin_of_generateWithin h
  · intro h
    obtain ⟨i, s, hdrawn⟩ := (drawn_iff_derivesWithin hforced hfew).mpr h
    exact ⟨i, s, generateWithin_of_generate hdrawn⟩

end Grammar

namespace Arguments

variable {ι σ : Type} [ChoiceSource σ] {arguments : Arguments} {source : σ} {sources : ι → σ}
  {bytes : ByteArray} {g : Grammar} {report : Report}

/-- A run for one sentence ends well if the sentence can be sampled. -/
theorem status_run_iff (hcheck : arguments.check = false) (hamount : arguments.amount = 1)
    (hread : Grammar.ofBytes arguments.file arguments.start bytes = .ok g)
    (hconvert : g.convert.result = .ok report) :
    (arguments.run (.ok bytes) source).status = 0 ↔
      ∃ w s, g.convert.grammar.sample Output.depthLimit source = .ok w s := by
  rw [run_of_convert hcheck hread hconvert, hamount, Output.sentences]
  cases g.convert.grammar.sample Output.depthLimit source <;>
    simp [Output.sentences, Output.failure]

/-- A run for one sentence can end well if there is a derivation within the depth. -/
theorem exists_status_run_iff (hcheck : arguments.check = false) (hamount : arguments.amount = 1)
    (hread : Grammar.ofBytes arguments.file arguments.start bytes = .ok g)
    (hconvert : g.convert.result = .ok report) (hforced : ChoiceSource.ForcesAll sources)
    (hfew : ∀ r ∈ g.convert.grammar.rules, r.alternatives.length < Words.wordCount) :
    (∃ i, (arguments.run (.ok bytes) (sources i)).status = 0) ↔
      ∃ w, Grammar.DerivesWithin g.convert.grammar Output.depthLimit
        [.nonterminal g.convert.grammar.start] w := by
  simp only [status_run_iff hcheck hamount hread hconvert, ← Grammar.sampled_iff hforced hfew]
  exact exists_comm

/-- Sampling a converted grammar can give exactly the sentences whose trees, with long alternatives
nested, are within the limit. If there are sentences besides the empty one, some tree is, unless the
converted grammar has more nonterminals than the limit allows levels. -/
theorem run_samples_within_limit
    (hread : Grammar.ofBytes arguments.file arguments.start bytes = .ok g)
    (hconvert : g.convert.result = .ok report) (hforced : ChoiceSource.ForcesAll sources)
    (hfew : ∀ r ∈ g.convert.grammar.rules, r.alternatives.length < Words.wordCount) :
    (∀ w,
      (∃ i s, g.convert.grammar.sample Output.depthLimit (sources i) = .ok w s) ↔
      ∃ t : g.uncut.Tree g.start, t.yield = w ∧ t.height ≤ Output.depthLimit) ∧
    (arguments.check = false → arguments.amount = 1 →
      ((∃ i, (arguments.run (.ok bytes) (sources i)).status = 0) ↔
        ∃ t : g.uncut.Tree g.start, t.height ≤ Output.depthLimit)) ∧
    ((∃ w, g.Generates g.start w ∧ w ≠ []) →
      g.convert.grammar.nonterminals.length ≤ Output.depthLimit →
      ∃ t : g.uncut.Tree g.start, t.height ≤ Output.depthLimit) := by
  have hwell : g.WellFormed := (Grammar.Built.ofBytes hread).wellFormed
  have hstart := (Grammar.keeps_convert g).start_eq
  have htrees (w : List Name) :
      Grammar.DerivesWithin g.convert.grammar Output.depthLimit [.nonterminal g.start] w ↔
        ∃ t : g.uncut.Tree g.start, t.yield = w ∧ t.height ≤ Output.depthLimit :=
    (Grammar.derivesWithin_convert_iff hwell hconvert).trans
      Grammar.derivesNested_iff_exists_tree
  have hsome : (∃ w, Grammar.DerivesWithin g.convert.grammar Output.depthLimit
      [.nonterminal g.start] w) ↔ ∃ t : g.uncut.Tree g.start, t.height ≤ Output.depthLimit := by
    simp only [htrees]
    constructor
    · rintro ⟨_, t, _, ht⟩
      exact ⟨t, ht⟩
    · rintro ⟨t, ht⟩
      exact ⟨t.yield, t, rfl, ht⟩
  refine ⟨fun w => ?_, fun hcheck hamount => ?_, fun hsentence hdepth => ?_⟩
  · rw [Grammar.sampled_iff hforced hfew, hstart, htrees]
  · rw [exists_status_run_iff hcheck hamount hread hconvert hforced hfew, hstart, hsome]
  · obtain ⟨w, hw⟩ := Grammar.exists_derivesWithin_convert hwell hconvert hsentence
    exact hsome.mp ⟨w, hw.mono hdepth⟩

end Arguments

/-- The request for one sentence of the grammar in a file. -/
def Arguments.request : Arguments := ⟨"g.bnf", none, false, false, 1⟩

namespace Grammar

/-- A grammar of one sentence, which has the given length. -/
def row (n : Nat) : Grammar where
  nonterminals := ["S"]
  terminals := ["a"]
  rules := [⟨"S", [(List.replicate n "a").map .terminal]⟩]
  start := "S"

def rowText (n : Nat) : String := "S =" ++ String.join (List.replicate n " \"a\"") ++ "\n"

/-- What a conversion makes of a row of three. -/
def rowNormal : Grammar where
  nonterminals := ["S", "0", "1"]
  terminals := ["a"]
  rules := [
    ⟨"S", [[.nonterminal "0", .nonterminal "1"]]⟩,
    ⟨"0", [[.nonterminal "1", .nonterminal "1"]]⟩,
    ⟨"1", [[.terminal "a"]]⟩]
  start := "S"

/-- The only tree of a row of three. -/
def rowTree : (row 3).Tree "S" :=
  have hS : [.terminal "a", .terminal "a", .terminal "a"] ∈ (row 3).alternatives "S" := by decide
  .node hS (.leaf "a" (.leaf "a" (.leaf "a" .nil))) .nil

theorem ofBytes_short_row : ofBytes "g.bnf" none (rowText 3).toUTF8 = .ok (row 3) := by
  have htext : rowText 3 = "S = \"a\" \"a\" \"a\"\n" := by decide
  rw [htext, ofBytes_toUTF8]
  cbv

theorem pruned_short_row : (row 3).pruned = row 3 := by
  rw [pruned]
  cbv

theorem convert_short_row :
    (row 3).convert.result = .ok ⟨false, [], false, [], [], ["0", "1"]⟩ ∧
      (row 3).convert.grammar = rowNormal := by
  have hnormal : (row 3).isNormal = false := by decide
  have hbinary : (row 3).binarize.result = .ok ["0", "1"] := rfl
  constructor
  · rw [convert_result hnormal, pruned_short_row, hbinary]
    cbv
  · rw [convert_grammar hnormal, pruned_short_row]
    rfl

end Grammar

/-- Three symbols take three levels: the helper of the first two stands a level below the pair in
which the third one stands, and the helper of the terminal below both. -/
theorem Arguments.run_samples_short_row :
    Grammar.ofBytes request.file request.start (Grammar.rowText 3).toUTF8 =
        .ok (Grammar.row 3) ∧
      (Grammar.row 3).convert.result = .ok ⟨false, [], false, [], [], ["0", "1"]⟩ ∧
      (∀ r ∈ (Grammar.row 3).convert.grammar.rules,
        r.alternatives.length < Words.wordCount) ∧
      Grammar.rowTree.height = 3 ∧
      (∃ words seed s, (Grammar.row 3).convert.grammar.sample Output.depthLimit
        (Words.ofSeed words seed) = .ok ["a", "a", "a"] s) ∧
      ∃ words seed, (request.run (.ok (Grammar.rowText 3).toUTF8)
        (Words.ofSeed words seed)).status = 0 := by
  obtain ⟨hresult, hgrammar⟩ := Grammar.convert_short_row
  have hread : Grammar.ofBytes request.file request.start (Grammar.rowText 3).toUTF8 =
      .ok (Grammar.row 3) := Grammar.ofBytes_short_row
  have hfew : ∀ r ∈ (Grammar.row 3).convert.grammar.rules,
      r.alternatives.length < Words.wordCount := by
    rw [hgrammar]
    decide
  have huncut : (Grammar.row 3).uncut = Grammar.row 3 :=
    (Grammar.uncut_eq_pruned (by decide)).trans Grammar.pruned_short_row
  have hheight : Grammar.rowTree.height ≤ Output.depthLimit := by decide
  have hsamples := run_samples_within_limit hread hresult Words.forcesAll_ofSeed hfew
  rw [huncut] at hsamples
  simp only [Prod.exists] at hsamples
  exact ⟨hread, hresult, hfew, rfl, (hsamples.1 _).mpr ⟨Grammar.rowTree, rfl, hheight⟩,
    (hsamples.2.1 rfl rfl).mpr ⟨Grammar.rowTree, hheight⟩⟩

namespace Grammar

theorem wellFormed_long_row : (row 65).WellFormed := by decide

theorem ofBytes_long_row : ofBytes "g.bnf" none (rowText 65).toUTF8 = .ok (row 65) := by
  have htext : (row 65).text = rowText 65 := by decide +kernel
  rw [← htext, ofBytes_toUTF8, ofText_text_eq_ok_iff wellFormed_long_row]
  refine ⟨fun a ha => ?_, by cbv⟩
  obtain rfl := List.mem_singleton.mp (ha.mem_terminals wellFormed_long_row)
  decide

theorem pruned_long_row : (row 65).pruned = row 65 := by
  rw [pruned]
  cbv

theorem exists_convert_long_row : ∃ report, (row 65).convert.result = .ok report := by
  -- counting the words is enough, and much less work than making all helpers
  have hdemand : ((row 65).demand Helpers.beginnings).length ≤ 63 := length_demand_le _ _
  have hnames := length_spareNames
  obtain ⟨helpers, hbinary⟩ := exists_binarize_of_few wellFormed_long_row <| by
    show _ + 1 + 2 * 1 ≤ _
    omega
  rw [convert_result (by decide), pruned_long_row, hbinary]
  exact ⟨_, rfl⟩

/-- An alternative of more symbols than there are levels derives nothing. -/
theorem not_derivesNested_row {n d : Nat} (h : d < n) (w : List Name) :
    ¬ DerivesNested (row n) d [.nonterminal "S"] w := by
  rw [derivesNested_nonterminal_iff]
  rintro ⟨e, rfl, alternative, ha, hw⟩
  have hrow : (row n).alternatives "S" = [(List.replicate n "a").map .terminal] := rfl
  rw [hrow, List.mem_singleton] at ha
  have hlength := hw.length_le
  rw [ha, List.length_map, List.length_replicate] at hlength
  omega

/-- A row of 65 symbols is read and converted, and has a sentence, but no words make a sample of
it. -/
theorem long_row_missed :
    ofBytes "g.bnf" none (rowText 65).toUTF8 = .ok (row 65) ∧
      (∃ report, (row 65).convert.result = .ok report) ∧
      (row 65).Generates "S" (List.replicate 65 "a") ∧
      (∀ words seed w s, (row 65).convert.grammar.sample Output.depthLimit
        (Words.ofSeed words seed) ≠ .ok w s) ∧
      ∀ words seed, (Arguments.request.run (.ok (rowText 65).toUTF8)
        (Words.ofSeed words seed)).status ≠ 0 := by
  obtain ⟨report, hconvert⟩ := exists_convert_long_row
  have huncut : (row 65).uncut = row 65 := (uncut_eq_pruned (by decide)).trans pruned_long_row
  have hread : ofBytes Arguments.request.file Arguments.request.start (rowText 65).toUTF8 =
      .ok (row 65) := ofBytes_long_row
  have hnone (words : List UInt32) (seed : UInt64) (w : List Name) (s : Words) :
      (row 65).convert.grammar.sample Output.depthLimit (Words.ofSeed words seed) ≠ .ok w s := by
    intro h
    have hw := derivesWithin_of_generateWithin h
    rw [(keeps_convert _).start_eq, derivesWithin_convert_iff wellFormed_long_row hconvert,
      huncut] at hw
    exact not_derivesNested_row (by decide) w hw
  refine ⟨hread, ⟨report, hconvert⟩, ?_, hnone, fun words seed hstatus => ?_⟩
  · exact .of_alternative (List.mem_singleton_self _) (derives_terminals _ _)
  · obtain ⟨w, s, h⟩ := (Arguments.status_run_iff rfl rfl hread hconvert).mp hstatus
    exact hnone words seed w s h

end Grammar

end ContextFree

import ContextFree.CommandLine.Run
import ContextFree.Proofs.Conversion
import ContextFree.Proofs.HelperUse
import ContextFree.Proofs.Reading

/-!
After a conversion that had something to do, every alternative derives a sentence. So every
nonterminal but the start symbol has sentences, and the start symbol has some exactly if it has
alternatives. A grammar that was found in normal form may miss both.
-/

namespace ContextFree

namespace Grammar

variable {g : Grammar}

/-- Every alternative derives a sentence. -/
def Fruitful (g : Grammar) : Prop :=
  ∀ a, ∀ alternative ∈ g.alternatives a, ∃ w, Derives g alternative w

theorem Fruitful.ne_nil_iff (h : g.Fruitful) {a : Name} :
    g.alternatives a ≠ [] ↔ ∃ w, g.Generates a w := by
  constructor
  · intro hne
    obtain ⟨alternative, ha⟩ := List.exists_mem_of_ne_nil _ hne
    obtain ⟨w, hw⟩ := h a alternative ha
    exact ⟨w, .of_alternative ha hw⟩
  · intro h'
    obtain ⟨w, hw⟩ := h'
    obtain ⟨alternative, ha, _⟩ := generates_iff.mp hw
    exact List.ne_nil_of_mem ha

theorem fruitful_withoutUnproductive (hg : g.WellFormed) : g.withoutUnproductive.Fruitful := by
  intro a alternative ha
  obtain ⟨_, w, hw⟩ := (mem_alternatives_withoutUnproductive_iff hg).mp ha
  exact ⟨w, (derives_withoutUnproductive_iff hg).mpr hw⟩

theorem exists_generates_withoutUnproductive (hg : g.WellFormed) {a : Name}
    (ha : a ∈ g.withoutUnproductive.nonterminals) (hne : a ≠ g.start) :
    ∃ w, g.withoutUnproductive.Generates a w := by
  obtain ⟨w, hw⟩ := ((mem_nonterminals_withoutUnproductive_iff hg).mp ha).resolve_left hne
  exact ⟨w, (derives_withoutUnproductive_iff hg).mpr hw⟩

section

variable {Key : Alternative → Prop} {make : Helpers → Alternative → Helpers}
  {change : Helpers → Alternative → Option Alternative} {names : List Name}

/-- A round makes no alternative that derives nothing, since no helper is made in vain. -/
theorem Fruitful.round (hf : Helpers.Fits Key make change) (hl : Helpers.Linked make change)
    (hg : g.WellFormed) (h : g.Fruitful) (hround : (g.round make change).result = .ok names) :
    (g.round make change).grammar.Fruitful := by
  have hchanged : ∀ a, ∀ alternative ∈ g.alternatives a, ∀ changed,
      change (g.gather make) alternative = some changed →
        ∃ w, Derives (g.round make change).grammar changed w := by
    intro a alternative ha changed hchange
    obtain ⟨w, hw⟩ := h a alternative ha
    exact ⟨w, (hf.derives hchange (standFor_round hf hg) w).mpr (hw.round hf hg hround)⟩
  -- the helpers come last: their sentences are parts of those of the changed alternatives
  have hnames := forall_names_round hl hg hround
    (P := fun a => ∃ w, (g.round make change).grammar.Generates a w) ?_
    fun a alternative ha changed hchange =>
      exists_derives_iff.mp (hchanged a alternative ha changed hchange)
  · intro a alternative ha
    rcases (mem_alternatives_round_iff hf hg hround).mp ha with ⟨old, hold, hchange⟩ | hentry
    · exact hchanged a old hold alternative hchange
    · obtain ⟨w, hw⟩ := hnames a (List.mem_map_of_mem hentry)
      exact ⟨w, (generates_helper_iff hf hg hentry).mp hw⟩
  · intro r hr h' alternative hmem
    obtain ⟨w, hw⟩ := h'
    obtain ⟨⟨key, a⟩, hentry, rfl⟩ := List.mem_map.mp hr
    rw [List.mem_singleton.mp hmem]
    exact exists_derives_iff.mp ⟨w, (generates_helper_iff hf hg hentry).mp hw⟩

/-- A round that goes through leaves nothing without alternatives that had some or was not
there. -/
theorem alternatives_round_ne_nil (hf : Helpers.Fits Key make change) (hg : g.WellFormed)
    (hround : (g.round make change).result = .ok names) {a : Name}
    (ha : a ∈ (g.round make change).grammar.nonterminals)
    (hold : a ∈ g.nonterminals → g.alternatives a ≠ []) :
    (g.round make change).grammar.alternatives a ≠ [] := by
  rcases mem_nonterminals_round.mp ha with ha | ha
  · obtain ⟨alternative, hmem⟩ := List.exists_mem_of_ne_nil _ (hold ha)
    obtain ⟨changed, hchanged, _⟩ := exists_mem_changed hf hg hround hmem
    exact List.ne_nil_of_mem hchanged
  · obtain ⟨⟨alternative, _⟩, hentry, rfl⟩ := List.mem_map.mp ha
    exact List.ne_nil_of_mem ((mem_alternatives_round_iff hf hg hround).mpr (.inr hentry))

end

variable {names : List Name} {report : Report}

theorem Fruitful.binarize (hg : g.WellFormed) (h : g.Fruitful)
    (hbinary : g.binarize.result = .ok names) : g.binarize.grammar.Fruitful :=
  binarize_induction (fun hf hl hk hround hkept => hkept.round hf hl hk hround) hg hbinary h

theorem alternatives_binarize_ne_nil (hg : g.WellFormed) (hbinary : g.binarize.result = .ok names)
    {a : Name} (ha : a ∈ g.binarize.grammar.nonterminals)
    (hold : a ∈ g.nonterminals → g.alternatives a ≠ []) :
    g.binarize.grammar.alternatives a ≠ [] := by
  refine binarize_induction (P := fun k => a ∈ k.nonterminals → k.alternatives a ≠ [])
    ?_ hg hbinary hold ha
  exact fun hf _ hk hround hkept ha => alternatives_round_ne_nil hf hk hround ha hkept

theorem fruitful_pruned (hg : g.WellFormed) : g.pruned.Fruitful :=
  fruitful_withoutUnproductive hg.withoutEpsilon.withoutRenamings.withoutUnreachable

theorem fruitful_convert (hg : g.WellFormed) (h : g.convert.result = .ok report)
    (hnew : report.alreadyNormal = false) : g.convert.grammar.Fruitful := by
  have hnormal := isNormal_of_report h hnew
  obtain ⟨helpers, hbinary, _⟩ := exists_helpers_of_convert hnormal h
  rw [convert_grammar hnormal]
  exact (fruitful_pruned hg).binarize hg.pruned hbinary

/-- Every nonterminal but the start symbol has alternatives after a conversion. -/
theorem alternatives_convert_ne_nil (hg : g.WellFormed) (h : g.convert.result = .ok report)
    (hnew : report.alreadyNormal = false) {a : Name}
    (ha : a ∈ g.convert.grammar.nonterminals) (hne : a ≠ g.start) :
    g.convert.grammar.alternatives a ≠ [] := by
  have hnormal := isNormal_of_report h hnew
  obtain ⟨helpers, hbinary, _⟩ := exists_helpers_of_convert hnormal h
  rw [convert_grammar hnormal] at ha ⊢
  apply alternatives_binarize_ne_nil hg.pruned hbinary ha
  intro ha
  have hstart := (keeps_withoutRenamings g.withoutEpsilon).start_eq
  have hreached := hg.withoutEpsilon.withoutRenamings.withoutUnreachable
  rw [(fruitful_pruned hg).ne_nil_iff]
  exact exists_generates_withoutUnproductive hreached ha fun heq => hne (heq.trans hstart)

/-- A conversion that had something to do leaves no nonterminal without sentences but possibly the
start symbol, which then has no alternatives. -/
theorem convert_leaves_productive (hg : g.Obtained) (h : g.convert.result = .ok report)
    (hnew : report.alreadyNormal = false) :
    (∀ a ∈ g.convert.grammar.nonterminals, a ≠ g.convert.grammar.start →
      ∃ w, w ≠ [] ∧ g.convert.grammar.Generates a w) ∧
    (g.convert.grammar.alternatives g.convert.grammar.start ≠ [] ↔
      ∃ w, w ≠ [] ∧ g.Generates g.start w) := by
  have hwell := hg.wellFormed
  have hfruitful := fruitful_convert hwell h hnew
  have hstart := (keeps_convert g).start_eq
  have hnil := nil_notMem_alternatives_of_isNormal (isNormal_convert hwell h)
  constructor
  · intro a ha hne
    have halternatives := alternatives_convert_ne_nil hwell h hnew ha (hstart ▸ hne)
    obtain ⟨w, hw⟩ := hfruitful.ne_nil_iff.mp halternatives
    exact ⟨w, Derives.ne_nil hnil hw (by simp), hw⟩
  · obtain ⟨hreached, hproductive⟩ := start_notMem_report h
    have hkept (w : List Name) : g.convert.grammar.Generates g.start w ↔
        g.Generates g.start w ∧ w ≠ [] :=
      generates_convert_iff hwell h hwell.start_mem hreached hproductive
    rw [hstart, hfruitful.ne_nil_iff]
    simp only [hkept, and_comm]

theorem convert_mixed_productive :
    (mixed.run [.addFresh]).convert.result =
        .ok ⟨false, ["S", "A"], true, ["U", "0"], ["N"], ["0", "1"]⟩ ∧
      (∀ a ∈ (mixed.run [.addFresh]).convert.grammar.nonterminals,
        a ≠ (mixed.run [.addFresh]).convert.grammar.start →
          ∃ w, w ≠ [] ∧ (mixed.run [.addFresh]).convert.grammar.Generates a w) := by
  have hobtained : (mixed.run [.addFresh]).Obtained := ⟨mixed, _, mixed_built, rfl⟩
  exact ⟨convert_mixed_result, (convert_leaves_productive hobtained convert_mixed_result rfl).1⟩

/-- Whether the start symbol has alternatives tells whether there are sentences, unless the grammar
was found in normal form and every alternative of its start symbol leads nowhere. -/
theorem startIsBarren_convert_iff (hg : g.Obtained) (h : g.convert.result = .ok report) :
    (g.convert.grammar.startIsBarren = true ↔
        ∀ w, ¬ g.convert.grammar.Generates g.convert.grammar.start w) ↔
      (report.alreadyNormal = true →
        g.alternatives g.start = [] ∨ ∃ w, g.Generates g.start w) := by
  rw [startIsBarren, List.isEmpty_iff]
  cases hnew : report.alreadyNormal with
  | false =>
    have hne := (fruitful_convert hg.wellFormed h hnew).ne_nil_iff (a := g.convert.grammar.start)
    have hnil := not_congr hne
    push Not at hnil
    simp [hnil]
  | true =>
    cases hnormal : g.isNormal with
    | false =>
      obtain ⟨_, _, rfl⟩ := exists_helpers_of_convert hnormal h
      cases hnew
    | true =>
      rw [convert_of_isNormal hnormal]
      have hsound (hbarren : g.alternatives g.start = []) (w : List Name) :
          ¬ g.Generates g.start w := by
        simp [generates_iff, hbarren]
      by_cases hbarren : g.alternatives g.start = []
      · simp [hbarren, hsound hbarren]
      · simp [hbarren]

theorem convert_mixed_startIsBarren :
    (mixed.run [.addFresh]).convert.result =
        .ok ⟨false, ["S", "A"], true, ["U", "0"], ["N"], ["0", "1"]⟩ ∧
      ((mixed.run [.addFresh]).convert.grammar.startIsBarren = true ↔
        ∀ w, ¬ (mixed.run [.addFresh]).convert.grammar.Generates
          (mixed.run [.addFresh]).convert.grammar.start w) := by
  have hobtained : (mixed.run [.addFresh]).Obtained := ⟨mixed, _, mixed_built, rfl⟩
  have hiff := startIsBarren_convert_iff hobtained convert_mixed_result
  exact ⟨convert_mixed_result, hiff.mpr (by simp)⟩

/-- The only alternative leads back, twice. -/
def looping : Grammar := ⟨["S"], [], [⟨"S", [[.nonterminal "S", .nonterminal "S"]]⟩], "S"⟩

def loopingDeclaration : Declaration := ⟨["S"], [], [("S", [["S", "S"]])], "S"⟩

theorem looping_built : looping.Built := .declared (d := loopingDeclaration) rfl

/-- The note on the missing sentences is missing itself. -/
theorem looping_missed :
    looping.Built ∧ looping.convert.result = .ok ⟨true, [], false, [], [], []⟩ ∧
      looping.convert.grammar.startIsBarren = false ∧
      (∀ w, ¬ looping.convert.grammar.Generates looping.convert.grammar.start w) ∧
      ofBytes "g.bnf" none "S = S S\n".toUTF8 = .ok looping ∧
      Arguments.run ⟨"g.bnf", none, false, false, 0⟩ (.ok "S = S S\n".toUTF8)
          (Words.ofSeed [] 0) =
        ⟨0, "Original grammar:\nS = S S\n\nAlready in Chomsky normal form\n\n" ++
          "Chomsky normal form:\nS = S S\n\n", ""⟩ := by
  have hconvert : looping.convert = ⟨.ok ⟨true, [], false, [], [], []⟩, [], looping⟩ :=
    convert_of_isNormal rfl
  have hnone : HandedOn true (fun _ => False) looping.rules := by
    simp [HandedOn, looping, Symbol.Satisfies]
  have hread : ofBytes "g.bnf" none "S = S S\n".toUTF8 = .ok looping := by
    rw [ofBytes_toUTF8]
    cbv
  refine ⟨looping_built, by rw [hconvert], by rw [hconvert]; rfl, ?_, hread, ?_⟩
  · rw [hconvert]
    intro w hw
    exact Derives.satisfies hnone hw (.nonterminal "S") List.mem_cons_self
  · simp only [Arguments.run, hread]
    decide +kernel

end Grammar

end ContextFree

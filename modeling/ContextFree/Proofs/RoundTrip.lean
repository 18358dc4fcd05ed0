import ContextFree.Grammar.Equiv
import ContextFree.Proofs.Reading
import ContextFree.Proofs.Representation
import ContextFree.Proofs.Text

/-!
Writing a grammar and reading it back. Only a line feed in a terminal that is used spoils the
reading; otherwise nothing is lost but terminals that are not used.
-/

namespace ContextFree

theorem filter_name {rules : List Rule} (h : (rules.map Rule.name).Nodup) {r : Rule}
    (hr : r ∈ rules) : rules.filter (·.name == r.name) = [r] := by
  induction rules with
  | nil => cases hr
  | cons s rest ih =>
    obtain ⟨hs, hrest⟩ := List.nodup_cons.mp h
    rcases List.mem_cons.mp hr with rfl | hr
    · have hnone : rest.filter (·.name == r.name) = [] := by
        rw [List.filter_eq_nil_iff]
        intro t ht heq
        exact hs (beq_iff_eq.mp heq ▸ List.mem_map_of_mem ht)
      simp [hnone]
    · have hne : s.name ≠ r.name := fun heq => hs (heq ▸ List.mem_map_of_mem hr)
      simpa [hne] using ih hrest hr

/-- Entries for distinct names are the rules that they declare. -/
theorem Declaration.grammar_rules {d : Declaration} {entries : List Rule}
    (hnonterminals : d.nonterminals = entries.map Rule.name)
    (hnodup : (entries.map Rule.name).Nodup) (halternatives : ∀ r ∈ entries, r.alternatives.Nodup) :
    (d.grammar entries).rules = entries := by
  have hcollect : ∀ r ∈ entries, (⟨r.name, collect entries r.name⟩ : Rule) = r := by
    intro r hr
    rw [collect, filter_name hnodup hr, List.flatMap_singleton,
      eraseDups_of_nodup (halternatives r hr)]
  show d.nonterminals.eraseDups.map (fun a => ⟨a, collect entries a⟩) = entries
  rw [hnonterminals, eraseDups_of_nodup hnodup, List.map_map]
  exact (List.map_congr_left hcollect).trans (List.map_id' entries)

namespace Grammar

variable {g : Grammar}

theorem mem_startFirst {r : Rule} : r ∈ g.startFirst ↔ r ∈ g.rules := by
  simp only [startFirst, List.mem_append, List.mem_filter, beq_iff_eq, bne_iff_ne, ← and_or_left]
  exact and_iff_left (em _)

theorem nodup_startFirst (hg : g.WellFormed) : (g.startFirst.map Rule.name).Nodup := by
  have hperm := List.filter_append_perm (fun r : Rule => r.name == g.start) g.rules
  exact (hperm.map Rule.name).nodup_iff.mpr hg.nodup_ruleNames

theorem exists_startFirst_eq (hg : g.WellFormed) :
    ∃ first rest, g.startFirst = first :: rest ∧ first.name = g.start := by
  obtain ⟨r, hr, hname⟩ := mem_ruleNames.mp (hg.ruleNames_eq ▸ hg.start_mem)
  have hstart : g.rules.filter (·.name == g.start) = [r] :=
    hname ▸ filter_name hg.nodup_ruleNames hr
  exact ⟨r, _, by rw [startFirst, hstart, List.singleton_append], hname⟩

/-- The grammar that reading the written one gives. -/
def reread (g : Grammar) : Grammar where
  nonterminals := g.startFirst.map Rule.name
  terminals := (g.startFirst.flatMap fun r => terminalsIn r.alternatives).eraseDups
  rules := g.startFirst
  start := g.start

theorem toList_text (g : Grammar) :
    g.text.toList = Line.ended (g.startFirst.map fun r => Token.spaced r.tokens) := by
  rw [text, String.toList_join, Line.ended, List.flatMap_map, List.flatMap_map]
  congr 1
  funext r
  exact r.spaced_tokens

/-- A written rule is broken over several lines exactly by line feeds in its terminals. -/
theorem lineFeed_mem_iff (hg : g.WellFormed) {r : Rule} (hr : r ∈ g.rules) :
    '\n' ∈ Token.spaced r.tokens ↔
      ∃ alternative ∈ r.alternatives, ∃ a, .terminal a ∈ alternative ∧ '\n' ∈ a.toList := by
  have hbare {a : Name} (ha : isBareName a = true) : '\n' ∉ a.toList :=
    Token.notMem_word (isBareName_iff.mp ha).2.2.2 (by decide)
  rw [Token.mem_spaced_iff (by decide)]
  constructor
  · intro h'
    obtain ⟨t, ht, hm⟩ := h'
    rcases Rule.mem_tokens ht with rfl | rfl | rfl | ⟨alternative, ha, ht⟩
    · exact absurd hm (hbare (hg.bare_nonterminal _ (hg.name_mem_nonterminals hr)))
    · exact absurd hm (by decide)
    · exact absurd hm (by decide)
    · rcases Alternative.mem_tokens ht with rfl | ⟨s, hs, rfl⟩
      · exact absurd hm (by decide)
      · cases s with
        | terminal a => exact ⟨alternative, ha, a, hs, by simpa [Symbol.token, Token.text] using hm⟩
        | nonterminal a =>
          have hmem : a ∈ g.nonterminals := hg.hasSymbol r hr alternative ha _ hs
          exact absurd hm (hbare (hg.bare_nonterminal a hmem))
  · intro h'
    obtain ⟨alternative, ha, a, hs, hm⟩ := h'
    have hm : '\n' ∈ (Token.quoted a).text := by simpa [Token.text] using hm
    exact ⟨.quoted a, Rule.token_mem_tokens ha hs, hm⟩

/-- A written rule begins with a letter of its name. -/
theorem exists_spaced_eq_cons (hg : g.WellFormed) {r : Rule} (hr : r ∈ g.rules) :
    ∃ c cs, Token.spaced r.tokens = c :: cs ∧ isBlank c = false ∧ c ≠ ';' := by
  have hbare := hg.bare_nonterminal r.name (hg.name_mem_nonterminals hr)
  obtain ⟨hne, _, hcomment, hend⟩ := isBareName_iff.mp hbare
  obtain ⟨c, cs, hname⟩ := List.exists_cons_of_ne_nil hne
  have hc : isBlank c = false := by
    have := hend c (hname ▸ List.mem_cons_self)
    simp only [endsWord, Bool.or_eq_false_iff] at this
    exact this.1.1.1
  have hspaced := Token.spaced_cons_cons (.word r.name) .equals
    ([Token.bar].intercalate (r.alternatives.map Alternative.tokens))
  rw [Token.text, hname, List.cons_append] at hspaced
  exact ⟨c, _, hspaced, hc, fun h => hcomment (by simp [hname, h])⟩

theorem read_spaced (hg : g.WellFormed) {r : Rule} (hr : r ∈ g.rules) :
    RuleLine.read (Token.spaced r.tokens) = .ok (r.name, r.alternatives) := by
  rw [RuleLine.read, Token.scan_spaced (hg.isWritable_of_mem_tokens hr)]
  exact Rule.parse_tokens (hg.empty_notMem hr)

/-- The written rules make up a grammar. -/
theorem toGrammar_startFirst (hg : g.WellFormed) (path : String) {rules : List RuleLine}
    (h : rules.map RuleLine.toRule = g.startFirst) :
    RuleLine.toGrammar path none rules = .ok g.reread := by
  obtain ⟨first, rest, hfirst, hstart⟩ := exists_startFirst_eq hg
  have hmem {r : RuleLine} (hr : r ∈ rules) : r.toRule ∈ g.rules :=
    mem_startFirst.mp (h ▸ List.mem_map_of_mem hr)
  have hnames : rules.map (·.name) = g.startFirst.map Rule.name := by
    rw [← h, List.map_map]
    rfl
  have hdeclared (a : Name) : a ∈ rules.map (·.name) ↔ a ∈ g.nonterminals := by
    rw [hnames, List.mem_map, ← hg.ruleNames_eq, mem_ruleNames]
    simp only [mem_startFirst]
  have hterminal (a : Name) (ha : a ∈ rules.flatMap fun r => terminalsIn r.alternatives) :
      a ∈ g.terminals := by
    obtain ⟨r, hr, ha⟩ := List.mem_flatMap.mp ha
    obtain ⟨alternative, hmem', hs⟩ := mem_terminalsIn.mp ha
    exact hg.hasSymbol _ (hmem hr) alternative hmem' _ hs
  have hrules : rules ≠ [] := by
    rintro rfl
    rw [hfirst] at h
    cases h
  obtain ⟨r, others, rfl⟩ := List.exists_cons_of_ne_nil hrules
  have hr : r.name = g.start := by
    rw [hfirst, List.map_cons] at h
    rw [← hstart, ← (List.cons.inj h).1]
  refine RuleLine.toGrammar_eq_ok_iff.mpr ⟨r, others, rfl, ?_, ?_, ?_⟩
  · rw [RuleLine.undefined_eq_nil_iff]
    intro r' hr' a ha
    obtain ⟨alternative, hmem', hs⟩ := mem_nonterminalsIn.mp ha
    exact (hdeclared a).mpr (hg.hasSymbol _ (hmem hr') alternative hmem' _ hs)
  · rw [Declaration.nameFault?_eq_none_iff]
    refine ⟨fun a ha => hg.bare_nonterminal a ((hdeclared a).mp ha),
      fun a ha => hg.quotable_terminal a (hterminal a ha),
      fun a ha ht => hg.not_mem_terminals a ((hdeclared a).mp ha) (hterminal a ht), ?_⟩
    exact List.mem_cons_self
  · have hnodup := nodup_startFirst hg
    have halternatives : ∀ r ∈ g.startFirst, r.alternatives.Nodup := fun r hr =>
      hg.nodup_alternatives r (mem_startFirst.mp hr)
    have hterminals : (r :: others).flatMap (fun r => terminalsIn r.alternatives) =
        g.startFirst.flatMap fun r => terminalsIn r.alternatives := by
      rw [← h, List.flatMap_map]
    rw [h, reread, Declaration.grammar, Grammar.mk.injEq]
    refine ⟨?_, ?_, ?_, hr.symm⟩
    · rw [RuleLine.declaration, hnames, eraseDups_of_nodup hnodup]
    · rw [RuleLine.declaration, hterminals]
    · exact (Declaration.grammar_rules hnames hnodup halternatives).symm

/-- Unless a rule is broken over several lines, the grammar is read back. -/
theorem ofText_text (hg : g.WellFormed) (path : String)
    (hlines : ∀ r ∈ g.rules, '\n' ∉ Token.spaced r.tokens) :
    ofText path none g.text = .ok g.reread := by
  have hkept : (g.startFirst.map fun r => Token.spaced r.tokens).map Line.dropReturn =
      g.startFirst.map fun r => Token.spaced r.tokens := by
    rw [List.map_map]
    apply List.map_congr_left
    intro r hr
    apply Line.dropReturn_eq_self
    exact Token.getLast?_spaced (hg.isWritable_of_mem_tokens (mem_startFirst.mp hr))
  have htext : Line.ofText g.text = g.startFirst.map fun r => Token.spaced r.tokens := by
    rw [Line.ofText_ended g.toList_text, hkept]
    intro line hline
    obtain ⟨r, hr, rfl⟩ := List.mem_map.mp hline
    exact hlines r (mem_startFirst.mp hr)
  have hread : List.Forall₂ (fun line r => Line.isRule line = true ∧
      RuleLine.read line = .ok (r.name, r.alternatives))
      (g.startFirst.map fun r => Token.spaced r.tokens) g.startFirst := by
    rw [List.forall₂_map_left_iff, List.forall₂_same]
    intro r hr
    have hr := mem_startFirst.mp hr
    obtain ⟨c, cs, heq, hblank, hcomment⟩ := exists_spaced_eq_cons hg hr
    exact ⟨heq ▸ Line.isRule_cons hblank hcomment cs, read_spaced hg hr⟩
  obtain ⟨numbered, hnumbered, hrules⟩ := RuleLine.ofLines_of_forall₂ path hread
  rw [ofText, ofLines, htext, hnumbered]
  exact toGrammar_startFirst hg path hrules

/-- A rule that is broken over several lines has a line with an open quote. -/
theorem ofText_text_ne_ok (hg : g.WellFormed) (path : String) {r : Rule} (hr : r ∈ g.rules)
    (hline : '\n' ∈ Token.spaced r.tokens) (k : Grammar) : ofText path none g.text ≠ .ok k := by
  obtain ⟨before, behind, hsplit⟩ := List.append_of_mem (mem_startFirst.mpr hr)
  obtain ⟨piece, others, heq, hpiece, hcount⟩ :=
    Token.exists_open_quote (hg.isWritable_of_mem_tokens hr) hline
  have htext : g.text.toList = Line.ended (before.map fun r => Token.spaced r.tokens) ++
      (piece ++ '\n' :: (others ++ '\n' ::
        Line.ended (behind.map fun r => Token.spaced r.tokens))) := by
    rw [toList_text, hsplit]
    simp [Line.ended, heq]
  have hmem := Line.mem_ofText htext hpiece
  have hrule : Line.isRule (Line.dropReturn piece) = true := by
    obtain ⟨c, cs, hcons, hblank, hcomment⟩ := exists_spaced_eq_cons hg hr
    cases piece with
    | nil =>
      rw [heq, List.nil_append] at hcons
      rw [← (List.cons.inj hcons).1] at hblank
      cases hblank
    | cons d ds =>
      rw [heq, List.cons_append] at hcons
      obtain rfl := (List.cons.inj hcons).1
      exact Line.isRule_dropReturn_cons hblank hcomment ds
  have hread : RuleLine.read (Line.dropReturn piece) = .error .openQuote := by
    have hscan : Token.scan (Line.dropReturn piece) = none := by
      rw [Token.scan_eq_none_iff, Line.count_quote_dropReturn, hcount]
    rw [RuleLine.read, hscan]
  intro h
  obtain ⟨rules, hrules, _⟩ := bind_eq_ok_iff.mp h
  exact RuleLine.ofLines_ne_ok (List.mem_map_of_mem hmem) hrule hread hrules

/-- The terminal occurs in some alternative. -/
def Uses (g : Grammar) (a : Name) : Prop :=
  ∃ r ∈ g.rules, ∃ alternative ∈ r.alternatives, .terminal a ∈ alternative

theorem Uses.mem_terminals (hg : g.WellFormed) {a : Name} (h : g.Uses a) : a ∈ g.terminals := by
  obtain ⟨r, hr, alternative, ha, hs⟩ := h
  exact hg.hasSymbol r hr alternative ha _ hs

theorem mem_reread_terminals {a : Name} : a ∈ g.reread.terminals ↔ g.Uses a := by
  simp [reread, Uses, List.mem_eraseDups, mem_terminalsIn, mem_startFirst]

theorem mem_reread_nonterminals (hg : g.WellFormed) {a : Name} :
    a ∈ g.reread.nonterminals ↔ a ∈ g.nonterminals := by
  rw [reread, List.mem_map, ← hg.ruleNames_eq, mem_ruleNames]
  simp only [mem_startFirst]

theorem reread_alternatives? (hg : g.WellFormed) (a : Name) :
    g.reread.alternatives? a = g.alternatives? a := by
  have hnodup : g.reread.ruleNames.Nodup := nodup_startFirst hg
  by_cases ha : a ∈ g.ruleNames
  · obtain ⟨r, hr, rfl⟩ := mem_ruleNames.mp ha
    have hr' : r ∈ g.reread.rules := mem_startFirst.mpr hr
    rw [alternatives?_name hg.nodup_ruleNames hr, alternatives?_name hnodup hr']
  · have ha' : a ∉ g.reread.ruleNames := by
      rw [hg.ruleNames_eq, ← mem_reread_nonterminals hg] at ha
      exact ha
    rw [alternatives?_eq_none_iff.mpr ha, alternatives?_eq_none_iff.mpr ha']

/-- Reading back loses the terminals that are not used, and nothing else. -/
theorem reread_equiv_iff (hg : g.WellFormed) :
    g.reread.Equiv g ↔ ∀ a ∈ g.terminals, g.Uses a := by
  have hnames : SameMembers g.reread.nonterminals g.nonterminals :=
    ⟨fun a ha => (mem_reread_nonterminals hg).mp ha,
      fun a ha => (mem_reread_nonterminals hg).mpr ha⟩
  constructor
  · intro h a ha
    exact mem_reread_terminals.mp (h.2.1.2 a ha)
  · intro h
    refine ⟨rfl, ⟨fun a ha => ?_, fun a ha => mem_reread_terminals.mpr (h a ha)⟩, hnames, ?_, ?_⟩
    · exact (mem_reread_terminals.mp ha).mem_terminals hg
    · rw [hg.ruleNames_eq]
      exact hnames
    · intro a _
      rw [alternatives, alternatives, reread_alternatives? hg]
      exact .refl _

/-- A grammar that was read from lines uses all its terminals, and there is no line feed in
them. -/
theorem uses_of_ofLines {path : String} {start : Option Name} {lines : List (Option (List Char))}
    (hlines : ∀ line, some line ∈ lines → '\n' ∉ line) (h : ofLines path start lines = .ok g) :
    (∀ a ∈ g.terminals, g.Uses a) ∧ ∀ a, g.Uses a → '\n' ∉ a.toList := by
  obtain ⟨rules, hrules, hgrammar⟩ := bind_eq_ok_iff.mp h
  obtain ⟨first, rest, _, _, _, rfl⟩ := RuleLine.toGrammar_eq_ok_iff.mp hgrammar
  constructor
  · intro a ha
    obtain ⟨r, hr, ha⟩ := List.mem_flatMap.mp (List.mem_eraseDups.mp ha)
    obtain ⟨alternative, hmem, hs⟩ := mem_terminalsIn.mp ha
    have hname : r.name ∈ (rules.map (·.name)).eraseDups :=
      List.mem_eraseDups.mpr (List.mem_map_of_mem hr)
    have hcollect := Declaration.mem_collect.mpr ⟨r.toRule, List.mem_map_of_mem hr, rfl, hmem⟩
    exact ⟨_, List.mem_map_of_mem hname, alternative, hcollect, hs⟩
  · rintro a ⟨r, hr, alternative, ha, hs⟩ hm
    obtain ⟨name, _, rfl⟩ := List.mem_map.mp hr
    obtain ⟨entry, hentry, _, hmem⟩ := Declaration.mem_collect.mp ha
    obtain ⟨r, hr, rfl⟩ := List.mem_map.mp hentry
    obtain ⟨line, hline, hread⟩ := RuleLine.exists_line_of_mem hrules hr
    obtain ⟨tokens, hscan, hquoted⟩ := RuleLine.exists_quoted_of_read hread hmem hs
    exact hlines line hline (Token.subset_of_quoted_mem hscan hquoted hm)

/-- The grammar was read from a text or from a file. -/
def Read (g : Grammar) : Prop :=
  (∃ path start text, ofText path start text = .ok g) ∨
    ∃ path start bytes, ofBytes path start bytes = .ok g

theorem Read.uses (h : g.Read) :
    (∀ a ∈ g.terminals, g.Uses a) ∧ ∀ a, g.Uses a → '\n' ∉ a.toList := by
  rcases h with ⟨path, start, text, h⟩ | ⟨path, start, bytes, h⟩
  · have hlines : ∀ line, some line ∈ (Line.ofText text).map some → '\n' ∉ line := by
      intro line hline
      obtain ⟨cs, hcs, heq⟩ := List.mem_map.mp hline
      exact Option.some.inj heq ▸ Line.notMem_of_mem_ofText hcs
    exact uses_of_ofLines hlines h
  · exact uses_of_ofLines (fun line hline => Line.notMem_of_mem_ofBytes hline) h

theorem exists_lineFeed_iff (hg : g.WellFormed) :
    (∀ r ∈ g.rules, '\n' ∉ Token.spaced r.tokens) ↔ ∀ a, g.Uses a → '\n' ∉ a.toList := by
  constructor
  · rintro h a ⟨r, hr, alternative, ha, hs⟩ hm
    exact h r hr ((lineFeed_mem_iff hg hr).mpr ⟨alternative, ha, a, hs, hm⟩)
  · intro h r hr hm
    obtain ⟨alternative, ha, a, hs, hm⟩ := (lineFeed_mem_iff hg hr).mp hm
    exact h a ⟨r, hr, alternative, ha, hs⟩ hm

/-- Which written grammars can be read, and what is read. -/
theorem ofText_text_eq_ok_iff (hg : g.WellFormed) (path : String) {k : Grammar} :
    ofText path none g.text = .ok k ↔ (∀ a, g.Uses a → '\n' ∉ a.toList) ∧ k = g.reread := by
  rw [← exists_lineFeed_iff hg]
  constructor
  · intro h
    have hlines : ∀ r ∈ g.rules, '\n' ∉ Token.spaced r.tokens := fun r hr hm =>
      ofText_text_ne_ok hg path hr hm k h
    rw [ofText_text hg path hlines] at h
    exact ⟨hlines, (Except.ok.inj h).symm⟩
  · intro h'
    obtain ⟨hlines, rfl⟩ := h'
    exact ofText_text hg path hlines

/-- Writing and reading back. It fails for line feeds in used terminals only, keeps the start symbol
and the rules, and keeps the terminals that are used. So it keeps the grammar exactly if all its
terminals are used, as they are in a grammar that was read. -/
theorem read_text (hg : g.Obtained) (path : String) :
    ((∃ k, ofText path none g.text = .ok k) ↔ ∀ a, g.Uses a → '\n' ∉ a.toList) ∧
    (∀ k, ofText path none g.text = .ok k →
      k.start = g.start ∧ SameMembers k.nonterminals g.nonterminals ∧ k.rules = g.startFirst ∧
      (∀ a, k.alternatives? a = g.alternatives? a) ∧ (∀ a, a ∈ k.terminals ↔ g.Uses a) ∧
      (k.Equiv g ↔ ∀ a ∈ g.terminals, g.Uses a)) ∧
    (g.Read → ∃ k, ofText path none g.text = .ok k ∧ k.Equiv g) := by
  have hwell := hg.wellFormed
  refine ⟨?_, fun k h => ?_, fun hread => ?_⟩
  · simp only [ofText_text_eq_ok_iff hwell, exists_and_left, exists_eq, and_true]
  · obtain ⟨_, rfl⟩ := (ofText_text_eq_ok_iff hwell path).mp h
    refine ⟨rfl, ⟨?_, ?_⟩, rfl, reread_alternatives? hwell, fun a => mem_reread_terminals,
      reread_equiv_iff hwell⟩
    · exact fun a ha => (mem_reread_nonterminals hwell).mp ha
    · exact fun a ha => (mem_reread_nonterminals hwell).mpr ha
  · obtain ⟨hused, hfeed⟩ := hread.uses
    exact ⟨g.reread, (ofText_text_eq_ok_iff hwell path).mpr ⟨hfeed, rfl⟩,
      (reread_equiv_iff hwell).mpr hused⟩

/-- The start symbol comes second, and the terminals look like other tokens. -/
def awkward : Grammar where
  nonterminals := ["A", "S"]
  terminals := ["ε", "= |;\r", "x"]
  rules := [
    ⟨"A", [[.terminal "ε"], []]⟩,
    ⟨"S", [[.terminal "= |;\r", .nonterminal "A"]]⟩]
  start := "S"

def awkwardDeclaration : Declaration where
  nonterminals := ["A", "S"]
  terminals := ["ε", "= |;\r", "x"]
  rules := [("A", [["ε"], []]), ("S", [["= |;\r", "A"]])]
  start := "S"

theorem awkward_built : awkward.Built := .declared (d := awkwardDeclaration) rfl

theorem read_text_awkward :
    awkward.Built ∧ (∀ a, awkward.Uses a → '\n' ∉ a.toList) ∧
      ∃ k, ofText "awkward" none awkward.text = .ok k ∧ k.rules = awkward.startFirst ∧
        ¬ k.Equiv awkward := by
  have hfeed : ∀ a ∈ awkward.terminals, '\n' ∉ a.toList := by decide
  have hobtained : awkward.Obtained := ⟨awkward, [], awkward_built, rfl⟩
  have huses : ∀ a, awkward.Uses a → '\n' ∉ a.toList := fun a ha =>
    hfeed a (ha.mem_terminals hobtained.wellFormed)
  have hread := read_text hobtained "awkward"
  obtain ⟨k, hk⟩ := hread.1.mpr huses
  obtain ⟨_, _, hrules, _, _, hequiv⟩ := hread.2.1 k hk
  refine ⟨awkward_built, huses, k, hk, hrules, fun h => ?_⟩
  obtain ⟨r, hr, alternative, ha, hs⟩ := hequiv.mp h "x" (by decide)
  revert alternative
  revert r
  decide

end Grammar

end ContextFree

import ContextFree.Proofs.Conversion
import ContextFree.Proofs.HelperCount

/-!
Where the nonterminals of a converted grammar come from. What the report calls useless is taken out,
the others stay in their order, and the helpers are put behind them. A helper may get the name of a
nonterminal that was taken out.
-/

namespace ContextFree

namespace Grammar

variable {g : Grammar} {report : Report}

theorem outside_sublist (g : Grammar) (names : List Name) :
    (g.outside names).Sublist g.nonterminals := List.filter_sublist

/-- The helpers of a grammar that is cut are new names, each of them given once. -/
theorem names_binarize_new (hg : g.WellFormed) {names : List Name}
    (h : g.binarize.result = .ok names) :
    names.Nodup ∧ ∀ a ∈ names, a ∉ g.terminals ∧ a ∉ g.nonterminals := by
  obtain rfl := eq_take_of_binarize hg h
  refine ⟨g.nodup_freeNames.sublist (List.take_sublist _ _), fun a ha => ?_⟩
  obtain ⟨_, hnonterminals, hterminals⟩ := mem_freeNames.mp (List.mem_of_mem_take ha)
  exact ⟨hterminals, hnonterminals⟩

/-- A conversion that had something to do leaves the nonterminals that it does not report as
useless, in their order, and behind them the helpers. It takes no nonterminal out twice, and never
the start symbol, and it names no helper like a symbol that is left. -/
theorem convert_accounts_for_names (hg : g.WellFormed) (h : g.convert.result = .ok report)
    (hnew : report.alreadyNormal = false) :
    (g.convert.grammar.nonterminals =
        g.nonterminals.filter (!(report.unreachable ++ report.unproductive).contains ·) ++
          report.helpers ∧
      g.convert.grammar.ruleNames = g.convert.grammar.nonterminals ∧
      g.convert.grammar.terminals = g.terminals ∧ g.convert.grammar.start = g.start) ∧
    (report.unreachable.Sublist g.nonterminals ∧ report.unproductive.Sublist g.nonterminals ∧
      report.unreachable.Disjoint report.unproductive ∧
      g.start ∉ report.unreachable ∧ g.start ∉ report.unproductive) ∧
    report.helpers.Nodup ∧
      ∀ a ∈ report.helpers, a ∉ g.terminals ∧
        a ∉ g.nonterminals.filter (!(report.unreachable ++ report.unproductive).contains ·) := by
  have hnormal := isNormal_of_report h hnew
  have hkeeps := keeps_convert g
  have hstart := start_notMem_report h
  obtain ⟨helpers, hbinary, rfl⟩ := exists_helpers_of_convert hnormal h
  obtain ⟨hnodup, hnames⟩ := names_binarize_new hg.pruned hbinary
  have hleft := g.nonterminals_pruned
  have hrenamings := nonterminals_withoutRenamings g.withoutEpsilon
  have hnonterminals := nonterminals_binarize hg.pruned
  rw [← eq_take_of_binarize hg.pruned hbinary, ← convert_grammar hnormal, hleft] at hnonterminals
  rw [hleft, (keeps_pruned g).terminals_eq] at hnames
  refine ⟨⟨hnonterminals, (hkeeps.wellFormed hg).ruleNames_eq, hkeeps.terminals_eq,
    hkeeps.start_eq⟩, ⟨?_, ?_, ?_, hstart⟩, hnodup, hnames⟩
  · exact hrenamings ▸ outside_sublist _ _
  · exact (outside_sublist _ _).trans (hrenamings ▸ List.filter_sublist)
  · intro a ha hproductive
    have hreached := (outside_sublist _ _).subset hproductive
    exact (mem_nonterminals_withoutUnreachable.mp hreached).2 ha

/-- The nonterminal `0` is taken out, and a helper gets its name. -/
theorem convert_mixed_accounts_for_names :
    (mixed.run [.addFresh]).WellFormed ∧
      (mixed.run [.addFresh]).convert.result =
        .ok ⟨false, ["S", "A"], true, ["U", "0"], ["N"], ["0", "1"]⟩ ∧
      (mixed.run [.addFresh]).nonterminals = ["S", "A", "N", "U", "0"] ∧
      (mixed.run [.addFresh]).convert.grammar.nonterminals = ["S", "A", "0", "1"] ∧
      (mixed.run [.addFresh]).convert.grammar.ruleNames = ["S", "A", "0", "1"] := by
  have hg : (mixed.run [.addFresh]).WellFormed :=
    (keeps_run mixed _).wellFormed mixed_built.wellFormed
  obtain ⟨⟨hnonterminals, hruleNames, _⟩, _⟩ :=
    convert_accounts_for_names hg convert_mixed_result rfl
  rw [mixed_run_addFresh] at hnonterminals
  have hleft : (mixed.run [.addFresh]).convert.grammar.nonterminals = ["S", "A", "0", "1"] := by
    rw [mixed_run_addFresh, hnonterminals]
    decide
  exact ⟨hg, convert_mixed_result, rfl, hleft, hruleNames.trans hleft⟩

end Grammar

end ContextFree

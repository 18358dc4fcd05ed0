import ContextFree.CommandLine.Run
import ContextFree.Proofs.Conversion
import ContextFree.Proofs.RoundTrip

/-!
The normal form that a run prints, given to a second run. A written grammar keeps the order of its
rules when it is read, as the start symbol's rule comes first in it already.
-/

namespace ContextFree

namespace Grammar

variable {g : Grammar} {report : Report}

theorem startFirst_reread (g : Grammar) : g.reread.startFirst = g.startFirst := by
  rw [startFirst, reread, startFirst]
  simp [List.filter_append, List.filter_filter, bne]

theorem text_reread (g : Grammar) : g.reread.text = g.text := by
  rw [text, startFirst_reread, text]

theorem isNormal_reread (g : Grammar) : g.reread.isNormal = g.isNormal := by
  rw [Bool.eq_iff_iff, isNormal_iff, isNormal_iff]
  exact forall_congr' fun r => imp_congr_left mem_startFirst

theorem startIsBarren_reread (hg : g.WellFormed) : g.reread.startIsBarren = g.startIsBarren := by
  rw [startIsBarren, alternatives, reread_alternatives? hg]
  rfl

/-- A conversion puts no terminal into an alternative that was not declared. -/
theorem Uses.of_convert (hg : g.WellFormed) {a : Name} (h : g.convert.grammar.Uses a) :
    a ∈ g.terminals := by
  have hkeeps := keeps_convert g
  exact hkeeps.terminals_eq ▸ h.mem_terminals (hkeeps.wellFormed hg)

/-- The conversion of a grammar that was read can be written and read. -/
theorem ofBytes_text_convert (hg : g.WellFormed) (hread : g.Read) (path : String) :
    ofBytes path none g.convert.grammar.text.toUTF8 = .ok g.convert.grammar.reread := by
  obtain ⟨huses, hfeed⟩ := hread.uses
  rw [ofBytes_toUTF8, ofText_text_eq_ok_iff ((keeps_convert g).wellFormed hg)]
  exact ⟨fun a ha => hfeed a (huses a (ha.of_convert hg)), rfl⟩

end Grammar

namespace Arguments

variable {σ τ : Type} [ChoiceSource σ] [ChoiceSource τ] {arguments : Arguments}
  {content : Except FileError ByteArray} {source : σ} {bytes : ByteArray} {g : Grammar}
  {report : Report}

theorem titled_original (g : Grammar) :
    Output.titled "Original grammar" g = "Original grammar:\n" ++ g.text ++ "\n" := rfl

theorem titled_normal (g : Grammar) :
    Output.titled "Chomsky normal form" g = "Chomsky normal form:\n" ++ g.text ++ "\n" := rfl

/-- What a run prints in front of the normal form. -/
def account (steps : Bool) (g : Grammar) (report : Report) : String :=
  Output.titled "Original grammar" g ++
    (if steps then
      String.join (g.convert.snapshots.map fun s => Output.titled s.1.heading s.2)
    else "") ++
    Output.notes steps report g.convert.grammar

theorem run_of_convert (hcheck : arguments.check = false)
    (hread : Grammar.ofBytes arguments.file arguments.start bytes = .ok g)
    (hconvert : g.convert.result = .ok report) :
    arguments.run (.ok bytes) source =
      Output.sentences arguments.file g.convert.grammar arguments.amount
        (account arguments.steps g report ++
          Output.titled "Chomsky normal form" g.convert.grammar) source := by
  simp [run, hread, hcheck, Output.converted, hconvert, account]

/-- A run that shall convert and ends well has read the file and converted its grammar. -/
theorem exists_of_status (hcheck : arguments.check = false)
    (hstatus : (arguments.run content source).status = 0) :
    ∃ bytes g report, content = .ok bytes ∧
      Grammar.ofBytes arguments.file arguments.start bytes = .ok g ∧
      g.convert.result = .ok report := by
  cases content with
  | error fault => cases hstatus
  | ok bytes =>
    cases hread : Grammar.ofBytes arguments.file arguments.start bytes with
    | error errors => simp [run, hread, Output.failure] at hstatus
    | ok g =>
      cases hconvert : g.convert.result with
      | error fault =>
        simp [run, hread, hcheck, Output.converted, hconvert, Output.failure] at hstatus
      | ok report => exact ⟨bytes, g, report, rfl, hread, hconvert⟩

/-- A grammar in normal form is printed as it is. -/
theorem account_of_isNormal (h : g.isNormal = true) (steps : Bool) :
    account steps g ⟨true, [], false, [], [], []⟩ =
      Output.titled "Original grammar" g ++ "Already in Chomsky normal form\n\n" ++
        (if g.startIsBarren then "Note: the grammar generates no sentences\n" else "") := by
  simp [account, Grammar.convert_of_isNormal h, Output.notes, String.append_assoc]

/-- The normal form that a run prints is a fixed point: a run on a file that holds it finds it in
normal form, and prints the same text for the grammar that was read and for its normal form. -/
theorem run_on_normal_form (hcheck : arguments.check = false) (hamount : arguments.amount = 0)
    (hstatus : (arguments.run content source).status = 0) :
    ∃ bytes g before, content = .ok bytes ∧
      Grammar.ofBytes arguments.file arguments.start bytes = .ok g ∧
      arguments.run content source =
        ⟨0, before ++ "Chomsky normal form:\n" ++ g.convert.grammar.text ++ "\n", ""⟩ ∧
      ∀ (again : Arguments) (source' : τ),
        again.start = none → again.check = false → again.amount = 0 →
          again.run (.ok g.convert.grammar.text.toUTF8) source' =
            ⟨0, "Original grammar:\n" ++ g.convert.grammar.text ++ "\n" ++
              "Already in Chomsky normal form\n\n" ++
              (if g.convert.grammar.startIsBarren then
                "Note: the grammar generates no sentences\n"
              else "") ++
              "Chomsky normal form:\n" ++ g.convert.grammar.text ++ "\n", ""⟩ := by
  obtain ⟨bytes, g, report, rfl, hread, hconvert⟩ := exists_of_status hcheck hstatus
  have hgrammar : g.Read := .inr ⟨_, _, _, hread⟩
  have hwell : g.WellFormed := (Grammar.Built.ofBytes hread).wellFormed
  refine ⟨bytes, g, account arguments.steps g report, rfl, hread, ?_,
    fun again source' hstart hcheck' hamount' => ?_⟩
  · rw [run_of_convert hcheck hread hconvert, hamount, Output.sentences, titled_normal]
    simp only [String.append_assoc]
  · have hnormal : g.convert.grammar.reread.isNormal = true := by
      rw [Grammar.isNormal_reread]
      exact Grammar.isNormal_convert hwell hconvert
    have hreread : Grammar.ofBytes again.file again.start g.convert.grammar.text.toUTF8 =
        .ok g.convert.grammar.reread := by
      rw [hstart]
      exact Grammar.ofBytes_text_convert hwell hgrammar again.file
    have hagain := Grammar.convert_of_isNormal hnormal
    have hkept : g.convert.grammar.reread.convert.grammar = g.convert.grammar.reread :=
      congrArg Conversion.grammar hagain
    rw [run_of_convert hcheck' hreread (congrArg Conversion.result hagain), hamount',
      account_of_isNormal hnormal, hkept, Output.sentences,
      Grammar.startIsBarren_reread ((Grammar.keeps_convert g).wellFormed hwell), titled_original,
      titled_normal, Grammar.text_reread]
    simp only [String.append_assoc]

end Arguments

namespace Grammar

/-- Every alternative of the start symbol leads back, and its rule is not the first one. -/
def circling : Grammar where
  nonterminals := ["A", "S"]
  terminals := ["a"]
  rules := [
    ⟨"A", [[.terminal "a"]]⟩,
    ⟨"S", [[.nonterminal "S", .nonterminal "A"], [.nonterminal "S"]]⟩]
  start := "S"

/-- What a conversion makes of it. -/
def circlingNormal : Grammar where
  nonterminals := ["A", "S"]
  terminals := ["a"]
  rules := [⟨"A", [[.terminal "a"]]⟩, ⟨"S", []⟩]
  start := "S"

theorem ofBytes_circling :
    ofBytes "g.bnf" (some "S") "A = \"a\"\nS = S A | S\n".toUTF8 = .ok circling := by
  rw [ofBytes_toUTF8]
  cbv

theorem convert_circling :
    circling.convert.result = .ok ⟨false, [], false, [], [], []⟩ ∧
      circling.convert.grammar = circlingNormal := by
  have hnormal : circling.isNormal = false := by decide
  have hpruned : circling.pruned = circlingNormal := by
    rw [pruned]
    cbv
  have hbinary : circlingNormal.binarize.result = .ok [] := rfl
  constructor
  · rw [convert_result hnormal, hpruned, hbinary]
    cbv
  · rw [convert_grammar hnormal, hpruned]
    rfl

end Grammar

/-- The start symbol is left without alternatives, and its rule is written first. -/
theorem Arguments.run_on_normal_form_circling :
    (run ⟨"g.bnf", some "S", false, false, 0⟩ (.ok "A = \"a\"\nS = S A | S\n".toUTF8)
        (Words.ofSeed [] 0)).status = 0 ∧
      run ⟨"t.bnf", none, false, false, 0⟩ (.ok "S =\nA = \"a\"\n".toUTF8)
          (Words.ofSeed [] 0) =
        ⟨0, "Original grammar:\nS =\nA = \"a\"\n\nAlready in Chomsky normal form\n\n" ++
          "Note: the grammar generates no sentences\n" ++
          "Chomsky normal form:\nS =\nA = \"a\"\n\n", ""⟩ := by
  obtain ⟨hresult, hgrammar⟩ := Grammar.convert_circling
  have hstatus : (run ⟨"g.bnf", some "S", false, false, 0⟩
      (.ok "A = \"a\"\nS = S A | S\n".toUTF8) (Words.ofSeed [] 0)).status = 0 := by
    rw [run_of_convert rfl Grammar.ofBytes_circling hresult]
    rfl
  obtain ⟨bytes, g, _, hbytes, hread, _, hagain⟩ :=
    run_on_normal_form (τ := Words) rfl rfl hstatus
  obtain rfl := Except.ok.inj hbytes
  obtain rfl := Except.ok.inj (hread.symm.trans Grammar.ofBytes_circling)
  have hfixed := hagain ⟨"t.bnf", none, false, false, 0⟩ (Words.ofSeed [] 0) rfl rfl rfl
  rw [hgrammar] at hfixed
  exact ⟨hstatus, hfixed⟩

end ContextFree

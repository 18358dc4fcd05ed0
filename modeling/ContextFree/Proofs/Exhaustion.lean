import ContextFree.Proofs.Conversion
import ContextFree.Proofs.HelperCount

/-!
Running out of names. That can happen at any symbol of any alternative, in both rounds: some rules
have their helpers by then, one is left without alternatives, and the others are as they were. The
grammar that is left is in order nevertheless. It has lost no nonterminal, and although
sentences may be missing, it has no new ones.
-/

namespace ContextFree

namespace Grammar

/-- What is left of the grammar `g` when names run out is the grammar `k`. -/
structure Exhausts (g k : Grammar) : Prop where
  taken : ∀ a ∈ spareNames, a ∈ k.nonterminals ∨ a ∈ k.terminals
  wellFormed : k.WellFormed
  start_eq : k.start = g.start
  terminals_eq : k.terminals = g.terminals
  /-- No nonterminal has disappeared. -/
  kept : ∀ a ∈ g.nonterminals, a ∈ k.nonterminals
  /-- The nonterminals that were there before derive nothing new. -/
  sound : ∀ a ∈ g.nonterminals, ∀ w, k.Generates a w → g.Generates a w

variable {g : Grammar} {fault : GrammarError}

/-- Names run out only when none is free any more. -/
theorem freeNames_binarize_of_error (hg : g.WellFormed) (h : g.binarize.result = .error fault) :
    g.binarize.grammar.freeNames = [] := by
  rw [result_binarize hg] at h
  split_ifs at h with hfew
  have hall : g.binarize.grammar.nonterminals = g.nonterminals ++ g.freeNames := by
    rw [nonterminals_binarize hg, List.take_of_length_le (Nat.le_of_not_le hfew)]
  rw [freeNames_of_append (keeps_binarize g).terminals_eq hall]
  simp

theorem mem_names_of_freeNames_eq_nil (h : g.freeNames = []) {a : Name} (ha : a ∈ spareNames) :
    a ∈ g.nonterminals ∨ a ∈ g.terminals := by
  have hnot : a ∉ g.freeNames := h ▸ List.not_mem_nil
  rw [mem_freeNames] at hnot
  tauto

theorem exhausts_binarize (hg : g.WellFormed) (h : g.binarize.result = .error fault) :
    Exhausts g g.binarize.grammar where
  taken _ := mem_names_of_freeNames_eq_nil (freeNames_binarize_of_error hg h)
  wellFormed := hg.binarize
  start_eq := (keeps_binarize g).start_eq
  terminals_eq := (keeps_binarize g).terminals_eq
  kept a ha := by
    rw [nonterminals_binarize hg]
    exact List.mem_append_left _ ha
  sound _ ha _ := .of_binarize hg ha

/-- When the first round runs out of names, the helpers that it could make are there. The rules
before the first one that lacks a helper are cut, and those behind it are as they were. -/
theorem rules_binarize_of_error (h : g.cutLong.result = .error fault) :
    g.binarize.grammar.rules =
      (changeRules (Helpers.cut (g.gather Helpers.makeForLong)) g.rules).2 ++
        (g.gather Helpers.makeForLong).rules := by
  rw [binarize_of_error h]
  exact rules_round g _ _

/-- When cutting into pairs runs out of names, alone or in a conversion, every spare name is a
symbol. The grammar that is left is well-formed and has all the nonterminals that were to be cut,
which derive nothing new. In a conversion they derive only what they derived before it, and not the
empty sentence. -/
theorem running_out_is_sound (hg : g.WellFormed) :
    (∀ fault, g.binarize.result = .error fault →
      fault = .outOfNames ∧ Exhausts g g.binarize.grammar) ∧
    ∀ fault, g.convert.result = .error fault →
      fault = .outOfNames ∧ Exhausts g.pruned g.convert.grammar ∧
        ∀ a ∈ g.pruned.nonterminals, ∀ w,
          g.convert.grammar.Generates a w → g.Generates a w ∧ w ≠ [] := by
  refine ⟨fun fault h => ⟨eq_outOfNames_of_binarize h, exhausts_binarize hg h⟩, fun fault h => ?_⟩
  cases hnormal : g.isNormal with
  | true =>
    rw [convert_of_isNormal hnormal] at h
    cases h
  | false =>
    have hbinary : g.pruned.binarize.result = .error fault := by
      rwa [convert_result hnormal, map_eq_error_iff] at h
    have hleft := exhausts_binarize hg.pruned hbinary
    rw [← convert_grammar hnormal] at hleft
    refine ⟨eq_outOfNames_of_convert h, hleft, fun a ha w hw => ?_⟩
    exact (generates_pruned_iff hg ha).mp (hleft.sound a ha w hw)

/-- Two rules that want helpers, with any terminals. -/
def bracketed (terminals : List Name) : Grammar where
  nonterminals := ["S", "A"]
  terminals
  rules := [
    ⟨"S", [[.terminal "1", .nonterminal "S", .terminal "1"], [.nonterminal "A"]]⟩,
    ⟨"A", [[.terminal "1", .terminal "1", .terminal "1"]]⟩]
  start := "S"

/-- Of the spare names only `0` is no symbol of this grammar. -/
def cramped : Grammar := bracketed (spareNames.filter (· ∉ ["S", "A", "0"]))

theorem mem_terminals_cramped {a : Name} :
    a ∈ cramped.terminals ↔ a ∈ spareNames ∧ a ∉ ["S", "A", "0"] := by
  simp [cramped, bracketed]

theorem hasSymbol_bracketed {terminals : List Name} (hone : "1" ∈ terminals) :
    ∀ r ∈ (bracketed terminals).rules, ∀ alternative ∈ r.alternatives, ∀ s ∈ alternative,
      (bracketed terminals).HasSymbol s := by
  simp [bracketed, HasSymbol, hone]

theorem wellFormed_cramped : cramped.WellFormed where
  ruleNames_eq := rfl
  nodup_nonterminals := by decide
  nodup_terminals := List.Nodup.filter (· ∉ ["S", "A", "0"]) nodup_spareNames
  start_mem := by decide
  not_mem_terminals a ha hterminal :=
    (mem_terminals_cramped.mp hterminal).2 (List.mem_append_left ["0"] ha)
  hasSymbol := hasSymbol_bracketed <| mem_terminals_cramped.mpr
    ⟨mem_spareNames.mpr ⟨'1', by decide, .inl rfl⟩, by decide⟩
  nodup_alternatives := by decide
  bare_nonterminal := by decide
  quotable_terminal a ha :=
    isQuotableName_of_isBareName (isBareName_of_mem_spareNames (mem_terminals_cramped.mp ha).1)

/-- The names that are free when the terminals are those of `cramped`. -/
theorem mem_freeNames_of_cramped {k : Grammar} (hterminals : k.terminals = cramped.terminals)
    {a : Name} :
    a ∈ k.freeNames ↔ a ∈ spareNames ∧ a ∈ ["S", "A", "0"] ∧ a ∉ k.nonterminals := by
  rw [mem_freeNames, hterminals, mem_terminals_cramped]
  tauto

theorem freeNames_cramped : cramped.freeNames = ["0"] := by
  have hmem (a : Name) : a ∈ cramped.freeNames ↔ a ∈ ["0"] := by
    rw [mem_freeNames_of_cramped rfl]
    constructor
    · rintro ⟨_, hlisted, hnew⟩
      exact (List.mem_append.mp (hlisted : a ∈ ["S", "A"] ++ ["0"])).resolve_left hnew
    · intro ha
      obtain rfl := List.mem_singleton.mp ha
      exact ⟨mem_spareNames.mpr ⟨'0', by decide, .inl rfl⟩, by decide, by decide⟩
  exact List.perm_singleton.mp
    ((List.perm_ext_iff_of_nodup cramped.nodup_freeNames (List.nodup_singleton _)).mpr hmem)

/-- What is left of `cramped`: the rule of `S` is cut, and the one of `A` is in the making. -/
theorem binarize_cramped :
    cramped.binarize.result = .error .outOfNames ∧
      cramped.binarize.grammar.rules =
        [⟨"S", [[.nonterminal "0", .terminal "1"], [.nonterminal "A"]]⟩, ⟨"A", []⟩,
          ⟨"0", [[.terminal "1", .nonterminal "S"]]⟩] := by
  have hmade : cramped.gather Helpers.makeForLong =
      ⟨[([.terminal "1", .nonterminal "S"], "0")], []⟩ := by
    rw [gather, freeNames_cramped]
    rfl
  have hresult : cramped.cutLong.result = .error .outOfNames := by
    rw [cutLong, result_round_eq_ite, hmade]
    rfl
  constructor
  · rw [binarize_of_error hresult]
  · rw [rules_binarize_of_error hresult, hmade]
    rfl

/-- The first four stages take `A` out, so that its name is free again. -/
theorem pruned_bracketed (terminals : List Name) :
    (bracketed terminals).pruned =
      { bracketed terminals with
        nonterminals := ["S"]
        rules := [⟨"S", [[.terminal "1", .nonterminal "S", .terminal "1"],
          [.terminal "1", .terminal "1", .terminal "1"]]⟩] } := by
  rw [pruned]
  cbv

theorem convert_cramped : cramped.convert.result = .error .outOfNames := by
  have hwords : cramped.pruned.helperWords.length = 3 := by
    rw [cramped, pruned_bracketed]
    rfl
  have hfree : cramped.pruned.freeNames ⊆ ["A", "0"] := by
    intro a ha
    obtain ⟨_, hlisted, hnew⟩ :=
      (mem_freeNames_of_cramped (keeps_pruned cramped).terminals_eq).mp ha
    rw [cramped, pruned_bracketed] at hnew
    exact (List.mem_append.mp (hlisted : a ∈ ["S"] ++ ["A", "0"])).resolve_left hnew
  have hfew : cramped.pruned.freeNames.length ≤ 2 :=
    (List.Nodup.subperm (nodup_freeNames _) hfree).length_le
  rw [convert_result (by decide), result_binarize wellFormed_cramped.pruned, if_neg (by omega)]
  rfl

/-- Alone, the first round runs out of names. In the conversion it does not, since it may give the
name `A` away, and the second round has no name left for the terminal. -/
theorem running_out_is_sound_cramped :
    cramped.WellFormed ∧ cramped.binarize.result = .error .outOfNames ∧
      Exhausts cramped cramped.binarize.grammar ∧ cramped.binarize.grammar.alternatives "A" = [] ∧
      cramped.convert.result = .error .outOfNames ∧
      Exhausts cramped.pruned cramped.convert.grammar ∧
      "A" ∉ cramped.pruned.nonterminals ∧ "A" ∈ cramped.convert.grammar.nonterminals := by
  obtain ⟨hresult, hrules⟩ := binarize_cramped
  obtain ⟨halone, hconvert⟩ := running_out_is_sound wellFormed_cramped
  have hleft := (hconvert _ convert_cramped).2.1
  have htaken := hleft.taken "A" (mem_spareNames.mpr ⟨'A', by decide, .inl rfl⟩)
  rw [(keeps_convert cramped).terminals_eq, mem_terminals_cramped] at htaken
  refine ⟨wellFormed_cramped, hresult, (halone _ hresult).2, ?_, convert_cramped, hleft, ?_,
    htaken.resolve_right fun h => h.2 (by decide)⟩
  · rw [alternatives, alternatives?, hrules]
    rfl
  · rw [cramped, pruned_bracketed]
    decide

end Grammar

end ContextFree

import ContextFree.Bnf.Reading
import ContextFree.NormalForm.Operation
import ContextFree.Proofs.Binary
import ContextFree.Proofs.Declaration
import ContextFree.Proofs.Epsilon
import ContextFree.Proofs.Pruning
import ContextFree.Proofs.Renaming

/-!
Every grammar is well-formed that was declared or read and then changed by any run of operations,
whether these went through or not. Its start symbol and its terminals are the same as in the
beginning.
-/

namespace ContextFree

namespace Grammar

/-- How a grammar comes into being: it is declared, possibly with one character for each symbol, or
read from a text or from a file's bytes. -/
inductive Built : Grammar → Prop where
  | declared {d : Declaration} {g : Grammar} : d.toGrammar = .ok g → Built g
  | ofText {path text : String} {start : Option Name} {g : Grammar} :
      Grammar.ofText path start text = .ok g → Built g
  | ofBytes {path : String} {bytes : ByteArray} {start : Option Name} {g : Grammar} :
      Grammar.ofBytes path start bytes = .ok g → Built g

theorem exists_declaration_of_ofLines {path : String} {start : Option Name}
    {lines : List (Option (List Char))} {g : Grammar} (h : ofLines path start lines = .ok g) :
    ∃ d : Declaration, d.toGrammar = .ok g := by
  obtain ⟨rules, _, h⟩ := bind_eq_ok_iff.mp h
  cases rules with
  | nil => cases h
  | cons first rest =>
    simp only [RuleLine.toGrammar] at h
    split at h
    next => exact ⟨_, mapError_eq_ok_iff.mp h⟩
    next => cases h

theorem Built.wellFormed {g : Grammar} (h : Built g) : g.WellFormed := by
  cases h with
  | declared h => exact Declaration.wellFormed h
  | ofText h =>
    obtain ⟨d, hd⟩ := exists_declaration_of_ofLines h
    exact Declaration.wellFormed hd
  | ofBytes h =>
    obtain ⟨d, hd⟩ := exists_declaration_of_ofLines h
    exact Declaration.wellFormed hd

/-- Grammars that came into being and went through some run of operations. -/
def Obtained (g : Grammar) : Prop := ∃ k operations, Built k ∧ g = k.run operations

/-- What every operation keeps. -/
structure Keeps (g k : Grammar) : Prop where
  wellFormed : g.WellFormed → k.WellFormed
  start_eq : k.start = g.start
  terminals_eq : k.terminals = g.terminals

theorem Keeps.refl (g : Grammar) : Keeps g g := ⟨id, rfl, rfl⟩

theorem Keeps.trans {g h k : Grammar} (hg : Keeps g h) (hh : Keeps h k) : Keeps g k :=
  ⟨hh.wellFormed ∘ hg.wellFormed, hh.start_eq.trans hg.start_eq,
    hh.terminals_eq.trans hg.terminals_eq⟩

theorem keeps_withoutEpsilon (g : Grammar) : Keeps g g.withoutEpsilon := by
  refine ⟨fun hg => ?_, rfl, rfl⟩
  refine hg.change_alternatives rfl rfl rfl (ruleNames_mapAlternatives _ _) ?_ ?_
  · intro a variant hmem s hs
    obtain ⟨_, alternative, ha, hv⟩ := mem_alternatives_withoutEpsilon.mp hmem
    exact hg.hasSymbol_of_mem ha ((Alternative.sublist_of_mem_variants hv).subset hs)
  · intro a
    rw [withoutEpsilon, alternatives_mapAlternatives _ rfl]
    exact nodup_eraseDups _

/-- Merging adds nothing twice. -/
theorem nodup_append_filter {xs ys : List Alternative} (hx : xs.Nodup) (hy : ys.Nodup) :
    (xs ++ ys.filter (!xs.contains ·)).Nodup := by
  rw [List.nodup_append]
  refine ⟨hx, hy.filter _, ?_⟩
  rintro x hx y hy rfl
  exact absurd hx (by simpa using (List.mem_filter.mp hy).2)

theorem nodup_absorb {g : Grammar} {absorbed : List Name} {alternatives : List Alternative}
    (hg : ∀ a, (g.alternatives a).Nodup) (h : alternatives.Nodup) :
    (g.absorb absorbed alternatives).Nodup := by
  fun_induction absorb g absorbed alternatives with
  | case1 => exact h
  | case2 absorbed alternatives b hb rest hmem ih => exact ih (h.erase _)
  | case3 absorbed alternatives b hb rest hmem ih =>
    exact ih (nodup_append_filter (h.erase _) (hg b))

/-- Alternatives that are taken from the grammar itself may stand anywhere in it. -/
theorem keeps_setAlternatives {g : Grammar} {c : Name} {alternatives : List Alternative}
    (hold : ∀ alternative ∈ alternatives, ∃ b, alternative ∈ g.alternatives b)
    (hnodup : (∀ b, (g.alternatives b).Nodup) → alternatives.Nodup) :
    Keeps g (g.setAlternatives c alternatives) := by
  refine ⟨fun hg => ?_, rfl, rfl⟩
  have hcases (a : Name) : (g.setAlternatives c alternatives).alternatives a = alternatives ∨
      (g.setAlternatives c alternatives).alternatives a = g.alternatives a := by
    by_cases hac : a = c
    · subst hac
      by_cases ha : a ∈ g.ruleNames
      · exact .inl (alternatives_setAlternatives_self ha)
      · rw [alternatives_eq_nil ha, alternatives_eq_nil (by simpa using ha)]
        exact .inr rfl
    · exact .inr (alternatives_setAlternatives_of_ne g _ hac)
  refine hg.change_alternatives rfl rfl rfl (ruleNames_setAlternatives _ _ _) ?_ ?_
  · intro a alternative hmem s hs
    rcases hcases a with heq | heq <;> rw [heq] at hmem
    · obtain ⟨b, hb⟩ := hold alternative hmem
      exact hg.hasSymbol_of_mem hb hs
    · exact hg.hasSymbol_of_mem hmem hs
  · intro a
    rcases hcases a with heq | heq <;> rw [heq]
    · exact hnodup hg.nodup_of_name
    · exact hg.nodup_of_name a

theorem keeps_absorbRenamings (g : Grammar) (c : Name) : Keeps g (g.absorbRenamings c) := by
  apply keeps_setAlternatives
  · intro alternative hmem
    obtain ⟨_, b, _, hb⟩ := (Absorbing.initial g c).mem_absorb_iff.mp hmem
    exact ⟨b, hb⟩
  · exact fun hnodup => nodup_absorb hnodup (hnodup c)

theorem keeps_withoutRenamings (g : Grammar) : Keeps g g.withoutRenamings :=
  withoutRenamings_induction (fun k c hk => hk.trans (keeps_absorbRenamings k c)) (.refl g)

theorem keeps_withoutUnreachable (g : Grammar) : Keeps g g.withoutUnreachable := by
  refine ⟨fun hg => ?_, rfl, rfl⟩
  refine hg.prune rfl rfl rfl rfl (fun a => alternatives_without_sublist) ?_
  intro a alternative hmem b hb
  obtain ⟨ha, hmem⟩ := mem_alternatives_withoutUnreachable.mp hmem
  exact notMem_unreachable_of_mentions hg ha ⟨alternative, hmem, hb⟩

theorem keeps_withoutUnproductive (g : Grammar) : Keeps g g.withoutUnproductive := by
  refine ⟨fun hg => ?_, rfl, rfl⟩
  refine hg.prune rfl rfl rfl (ruleNames_mapAlternatives _ _) ?_ ?_
  · intro a
    rw [withoutUnproductive, alternatives_mapAlternatives _ List.filter_nil]
    exact List.filter_sublist.trans alternatives_without_sublist
  · intro a alternative hmem b hb hout
    obtain ⟨_, _, hknown⟩ := mem_alternatives_withoutUnproductive.mp hmem
    exact (mem_outside.mp hout).2.2 (Alternative.isKnown_iff.mp hknown _ hb)

theorem keeps_addFresh (g : Grammar) : Keeps g g.addFresh.grammar := by
  unfold addFresh
  split
  next => exact .refl g
  next a _ hfree =>
    have ha : a ∈ g.freeNames := hfree ▸ List.mem_cons_self
    refine ⟨fun hg => ?_, rfl, rfl⟩
    refine hg.extend g.rules [⟨a, []⟩] rfl rfl rfl rfl rfl
      (List.nodup_singleton a) (by simpa using ha) ?_ ?_
    · intro r hr alternative hmem s hs
      rcases List.mem_append.mp hr with hr | hr
      · exact (hg.hasSymbol r hr alternative hmem s hs).mono (List.Subset.refl _)
          fun b _ hb => List.mem_append_left _ hb
      · obtain rfl := List.mem_singleton.mp hr
        cases hmem
    · intro r hr
      rcases List.mem_append.mp hr with hr | hr
      · exact hg.nodup_alternatives r hr
      · obtain rfl := List.mem_singleton.mp hr
        exact List.nodup_nil

theorem keeps_binarize (g : Grammar) : Keeps g g.binarize.grammar := by
  refine ⟨.binarize, ?_, ?_⟩
  · rcases g.binarize_cases with ⟨_, _, heq⟩ | ⟨_, _, heq⟩ <;> rw [heq] <;> rfl
  · rcases g.binarize_cases with ⟨_, _, heq⟩ | ⟨_, _, heq⟩ <;> rw [heq] <;> rfl

theorem keeps_pruned (g : Grammar) : Keeps g g.pruned :=
  (keeps_withoutEpsilon g).trans <| (keeps_withoutRenamings _).trans <|
    (keeps_withoutUnreachable _).trans (keeps_withoutUnproductive _)

namespace WellFormed

variable {g : Grammar}

theorem withoutEpsilon (hg : g.WellFormed) : g.withoutEpsilon.WellFormed :=
  (keeps_withoutEpsilon g).wellFormed hg

theorem withoutRenamings (hg : g.WellFormed) : g.withoutRenamings.WellFormed :=
  (keeps_withoutRenamings g).wellFormed hg

theorem withoutUnreachable (hg : g.WellFormed) : g.withoutUnreachable.WellFormed :=
  (keeps_withoutUnreachable g).wellFormed hg

theorem pruned (hg : g.WellFormed) : g.pruned.WellFormed := (keeps_pruned g).wellFormed hg

end WellFormed

theorem keeps_convert (g : Grammar) : Keeps g g.convert.grammar := by
  cases h : g.isNormal with
  | true =>
    rw [convert_of_isNormal h]
    exact .refl g
  | false =>
    rw [convert_grammar h]
    exact (keeps_pruned g).trans (keeps_binarize _)

theorem keeps_apply (g : Grammar) (operation : Operation) : Keeps g (operation.apply g) := by
  cases operation with
  | stage s =>
    cases s with
    | epsilon => exact keeps_withoutEpsilon g
    | renamings => exact keeps_withoutRenamings g
    | reachability => exact keeps_withoutUnreachable g
    | productivity => exact keeps_withoutUnproductive g
    | binary => exact keeps_binarize g
  | addFresh => exact keeps_addFresh g
  | convert => exact keeps_convert g

theorem keeps_run (g : Grammar) (operations : List Operation) : Keeps g (g.run operations) := by
  induction operations generalizing g with
  | nil => exact .refl g
  | cons operation rest ih => exact (keeps_apply g operation).trans (ih _)

theorem Obtained.wellFormed {g : Grammar} (h : g.Obtained) : g.WellFormed := by
  obtain ⟨k, operations, hk, rfl⟩ := h
  exact (keeps_run k operations).wellFormed hk.wellFormed

/-- No run of operations on a grammar that was built breaks its representation, or changes the
start symbol or the terminals. -/
theorem representation_run {g : Grammar} (hg : g.Built) (operations : List Operation) :
    (g.run operations).WellFormed ∧ (g.run operations).start = g.start ∧
      (g.run operations).terminals = g.terminals := by
  have hkeeps := keeps_run g operations
  exact ⟨hkeeps.wellFormed hg.wellFormed, hkeeps.start_eq, hkeeps.terminals_eq⟩

/-- An empty alternative, a nonterminal that leads back, one without sentences and one that is not
reached. -/
def mixed : Grammar where
  nonterminals := ["S", "A", "N", "U"]
  terminals := ["a", "b"]
  rules := [
    ⟨"S", [[.nonterminal "A", .terminal "b", .nonterminal "A"], [],
      [.nonterminal "N", .terminal "a"]]⟩,
    ⟨"A", [[.nonterminal "S"], [.terminal "a"]]⟩,
    ⟨"N", [[.nonterminal "N", .terminal "b"]]⟩,
    ⟨"U", [[.terminal "a"]]⟩]
  start := "S"

def mixedDeclaration : Declaration where
  nonterminals := ["S", "A", "N", "U"]
  terminals := ["a", "b"]
  rules := [("S", [["A", "b", "A"], [], ["N", "a"]]), ("A", [["S"], ["a"]]), ("N", [["N", "b"]]),
    ("U", [["a"]])]
  start := "S"

theorem mixed_built : mixed.Built := .declared (d := mixedDeclaration) rfl

theorem representation_run_mixed :
    mixed.Built ∧
      (mixed.run [.stage .binary, .addFresh, .convert, .stage .reachability]).WellFormed ∧
      (mixed.run [.stage .binary, .addFresh, .convert, .stage .reachability]).start = "S" ∧
      (mixed.run [.stage .binary, .addFresh, .convert, .stage .reachability]).terminals =
        ["a", "b"] :=
  ⟨mixed_built, representation_run mixed_built _⟩

end Grammar

end ContextFree

import ContextFree.Proofs.Representation
import ContextFree.Proofs.SententialForm
import Mathlib.Data.List.Permutation

/-!
What is left of a grammar when useless nonterminals are taken out: the nonterminals in the
sentential forms of the start symbol, or those that derive a sentence. The others are listed in
their order, and what is left derives what it did.
-/

namespace ContextFree

namespace Grammar

variable {g k : Grammar}

/-- Some nonterminals of `g` are taken out, which leaves `k`. -/
structure PrunedTo (g k : Grammar) (removed : List Name) : Prop where
  wellFormed : k.WellFormed
  start_eq : k.start = g.start
  terminals_eq : k.terminals = g.terminals
  nonterminals_sublist : k.nonterminals.Sublist g.nonterminals
  removed_eq : removed = g.nonterminals.filter (!k.nonterminals.contains ·)
  /-- The nonterminals that are left keep their sentences. -/
  generates_iff : ∀ a ∈ k.nonterminals, ∀ w, k.Generates a w ↔ g.Generates a w

theorem Keeps.prunedTo (hkeeps : Keeps g k) (hg : g.WellFormed) {names : List Name}
    (hnonterminals : k.nonterminals = (g.restrict names).nonterminals)
    (hsame : ∀ a ∈ k.nonterminals, ∀ w, k.Generates a w ↔ g.Generates a w) :
    PrunedTo g k (g.outside names) where
  wellFormed := hkeeps.wellFormed hg
  start_eq := hkeeps.start_eq
  terminals_eq := hkeeps.terminals_eq
  nonterminals_sublist := hnonterminals ▸ List.filter_sublist
  removed_eq := hnonterminals ▸ g.outside_eq_filter names
  generates_iff := hsame

theorem prunedTo_withoutUnreachable (hg : g.WellFormed) :
    PrunedTo g g.withoutUnreachable g.unreachable :=
  (keeps_withoutUnreachable g).prunedTo hg rfl fun _ ha _ =>
    generates_withoutUnreachable_iff hg (mem_nonterminals_withoutUnreachable.mp ha).2

theorem prunedTo_withoutUnproductive (hg : g.WellFormed) :
    PrunedTo g g.withoutUnproductive g.unproductive :=
  (keeps_withoutUnproductive g).prunedTo hg rfl fun _ _ _ => derives_withoutUnproductive_iff hg

theorem alternatives_withoutUnproductive_sublist (g : Grammar) (a : Name) :
    (g.withoutUnproductive.alternatives a).Sublist (g.alternatives a) := by
  rw [withoutUnproductive, alternatives_mapAlternatives _ List.filter_nil]
  exact List.filter_sublist.trans alternatives_without_sublist

/-- Without the unreachable nonterminals, those are left that stand in a sentential form of the
start symbol, with all their alternatives. Without the unproductive ones, those are left that derive
a sentence, and the start symbol, with the alternatives that derive one. -/
theorem pruning_is_exact (hg : g.WellFormed) :
    (PrunedTo g g.withoutUnreachable g.unreachable ∧
      (∀ a, a ∈ g.withoutUnreachable.nonterminals ↔
        a = g.start ∨ ∃ form, Relation.ReflTransGen g.Rewrites [.nonterminal g.start] form ∧
          .nonterminal a ∈ form) ∧
      ∀ a ∈ g.withoutUnreachable.nonterminals,
        g.withoutUnreachable.alternatives a = g.alternatives a) ∧
    PrunedTo g g.withoutUnproductive g.unproductive ∧
      (∀ a, a ∈ g.withoutUnproductive.nonterminals ↔ a = g.start ∨ ∃ w, g.Generates a w) ∧
      ∀ a ∈ g.withoutUnproductive.nonterminals,
        (g.withoutUnproductive.alternatives a).Sublist (g.alternatives a) ∧
        ∀ alternative, alternative ∈ g.withoutUnproductive.alternatives a ↔
          alternative ∈ g.alternatives a ∧ ∃ w, Derives g alternative w := by
  refine ⟨⟨prunedTo_withoutUnreachable hg, fun a => ?_, fun a ha => ?_⟩,
    prunedTo_withoutUnproductive hg, fun a => mem_nonterminals_withoutUnproductive_iff hg,
    fun a _ => ⟨g.alternatives_withoutUnproductive_sublist a, fun alternative =>
      mem_alternatives_withoutUnproductive_iff hg⟩⟩
  · rw [mem_nonterminals_withoutUnreachable_iff hg, ← chain_iff_exists_form]
    refine ⟨.inr, ?_⟩
    rintro (rfl | h)
    · exact .refl
    · exact h
  · exact alternatives_without_of_notMem (mem_nonterminals_withoutUnreachable.mp ha).2

/-- The start symbol derives nothing, and of the two nonterminals that it does not lead to one leads
back to it. -/
def overgrown : Grammar where
  nonterminals := ["U", "S", "A", "N", "V"]
  terminals := ["a", "b"]
  rules := [
    ⟨"U", [[.nonterminal "S"], [.nonterminal "V", .terminal "a"]]⟩,
    ⟨"S", [[.nonterminal "A", .nonterminal "N"], [.nonterminal "S", .nonterminal "S"]]⟩,
    ⟨"A", [[.terminal "a"]]⟩,
    ⟨"N", [[.nonterminal "N", .terminal "b"]]⟩,
    ⟨"V", [[.nonterminal "U"], [.terminal "b"]]⟩]
  start := "S"

/-- `N` stands in the form `a N b`. No alternative of `S` is left that derives a sentence. -/
theorem pruning_is_exact_overgrown :
    overgrown.WellFormed ∧ overgrown.unreachable = ["U", "V"] ∧
      "N" ∈ overgrown.withoutUnreachable.nonterminals ∧
      overgrown.unproductive = ["N"] ∧ "S" ∈ overgrown.withoutUnproductive.nonterminals ∧
      (∀ w, ¬ Derives overgrown [.nonterminal "A", .nonterminal "N"] w) ∧
      overgrown.withoutUnproductive.Generates "U" ["b", "a"] := by
  have hg : overgrown.WellFormed := by decide
  obtain ⟨⟨_, hreached, _⟩, hpruned, hproductive, hleft⟩ := pruning_is_exact hg
  have hS : "S" ∈ overgrown.withoutUnproductive.nonterminals := (hproductive "S").mpr (.inl rfl)
  have hnone : overgrown.withoutUnproductive.alternatives "S" = [] := by cbv
  have hAN : [.nonterminal "A", .nonterminal "N"] ∈ overgrown.alternatives "S" := by decide
  have ha : [.terminal "a"] ∈ overgrown.alternatives "A" := by decide
  have hNb : [.nonterminal "N", .terminal "b"] ∈ overgrown.alternatives "N" := by decide
  have hform := ((Relation.ReflTransGen.single (Rewrites.replace [] [] hAN)).tail
    (.replace [] [.nonterminal "N"] ha)).tail (.replace [.terminal "a"] [] hNb)
  have hV : overgrown.Generates "V" ["b"] := .of_alternative (by decide) (derives_terminals _ ["b"])
  have hU : overgrown.Generates "U" ["b", "a"] :=
    .of_alternative (by decide) (hV.append (derives_terminals _ ["a"]))
  refine ⟨hg, by cbv, ?_, by cbv, hS, fun w hw => ?_, ?_⟩
  · exact (hreached "N").mpr (.inr ⟨_, hform, by simp⟩)
  · have hmem := ((hleft "S" hS).2 _).mpr ⟨hAN, w, hw⟩
    simp [hnone] at hmem
  · exact (hpruned.generates_iff "U" ((hproductive "U").mpr (.inr ⟨_, hU⟩)) _).mpr hU

end Grammar

end ContextFree

import ContextFree.NormalForm.Renaming
import Mathlib.Algebra.GroupWithZero.Nat

/-!
The loops that take renamings out, one iteration after the other. `Grammar.absorb` and
`Grammar.withoutRenamings` tell what the loops end with. Here is what they do in between, so that it
can be said how often they go round.
-/

namespace ContextFree

/-- Where the loop that takes the renamings of one nonterminal out stands: the grammar, in which the
rule of that nonterminal changes from one iteration to the next, and the nonterminals that were
absorbed so far. -/
structure Absorption where
  grammar : Grammar
  absorbed : List Name

namespace Absorption

/-- Where the loop for `a` begins in a pass that has gone through the nonterminals `before`. -/
def initial (g : Grammar) (before : List Name) (a : Name) : Absorption :=
  ⟨(g.absorbAll before).2, [a]⟩

/-- One iteration of the loop for `a`. The first renaming is taken out. The alternatives of the
nonterminal that it led to are merged, unless that nonterminal was absorbed before. When no renaming
is left, there is no further iteration. -/
def next? (a : Name) (s : Absorption) : Option Absorption :=
  (firstRenamed? (s.grammar.alternatives a)).map fun b =>
    let rest := (s.grammar.alternatives a).erase [.nonterminal b]
    let shrunk := s.grammar.setAlternatives a rest
    if b ∈ s.absorbed then
      ⟨shrunk, s.absorbed⟩
    else
      let inherited := (shrunk.alternatives b).filter (!rest.contains ·)
      ⟨shrunk.setAlternatives a (rest ++ inherited), s.absorbed ++ [b]⟩

/-- The loop for `a` leads from one state to another in the given number of iterations. -/
inductive Iterates (a : Name) : Nat → Absorption → Absorption → Prop where
  | refl (s : Absorption) : Iterates a 0 s s
  | step {n : Nat} {s t u : Absorption} :
      s.next? a = some t → Iterates a n t u → Iterates a (n + 1) s u

end Absorption

/-- How many of the alternatives are renamings. -/
def renamingCount (alternatives : List Alternative) : Nat :=
  alternatives.countP (·.renamed?.isSome)

namespace Grammar

/-- How many alternatives of a grammar are renamings. -/
def renamingCount (g : Grammar) : Nat :=
  (g.rules.map fun r => ContextFree.renamingCount r.alternatives).sum

/-- The given number of passes over all nonterminals leads from one grammar to another. The last of
these passes is the first one that finds no renaming. -/
inductive Passes : Nat → Grammar → Grammar → Prop where
  | last {g : Grammar} :
      (g.absorbAll g.ruleNames).1 = false → Passes 1 g (g.absorbAll g.ruleNames).2
  | more {n : Nat} {g k : Grammar} :
      (g.absorbAll g.ruleNames).1 = true → Passes n (g.absorbAll g.ruleNames).2 k →
      Passes (n + 1) g k

end Grammar

end ContextFree

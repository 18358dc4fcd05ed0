import ContextFree.Grammar.Basic
import ContextFree.Grammar.Error

/-!
Names for new nonterminals. The names that may be given are fixed in advance and are tried in a
fixed order, so a grammar with many symbols can run out of them.
-/

namespace ContextFree

def nameLetters : List Char := "0123456789ABCDEFGHIJKLMNOPQRSTUVWXYZαβγδζηθικλμνξοπρστυφχψω".toList

/-- The names that a new nonterminal may get, in the order in which they are tried: each letter
alone, then each letter followed by a number below one hundred. -/
def spareNames : List Name :=
  nameLetters.map String.singleton ++
    nameLetters.flatMap fun c => (List.range 100).map fun i => String.singleton c ++ toString i

/-- What a step that may run out of names answers, and the grammar that it leaves. -/
structure Attempt (α : Type) where
  result : Except GrammarError α
  grammar : Grammar

namespace Grammar

/-- The spare names that are not symbols of the grammar yet. -/
def freeNames (g : Grammar) : List Name :=
  let names := g.names
  spareNames.filter (!names.contains ·)

/-- Adds the first free name as a nonterminal without alternatives. -/
def addFresh (g : Grammar) : Attempt Name :=
  match g.freeNames with
  | [] => ⟨.error .outOfNames, g⟩
  | a :: _ =>
    ⟨.ok a, { g with nonterminals := g.nonterminals ++ [a], rules := g.rules ++ [⟨a, []⟩] }⟩

end Grammar

end ContextFree

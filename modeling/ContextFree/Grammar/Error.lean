import ContextFree.Symbol

/-! What can be wrong with the declaration of a grammar, or with a request for new names. -/

namespace ContextFree

inductive GrammarError where
  | undeclaredStart (name : Name)
  | undeclaredSymbol (name : Name)
  | undeclaredLeftSide (name : Name)
  | ofBothKinds (name : Name)
  | unwritable (name : Name)
  /-- Every name that a new nonterminal may get is a symbol already. -/
  | outOfNames
  deriving DecidableEq

namespace GrammarError

/-- The name that the error is about. -/
def name? : GrammarError → Option Name
  | undeclaredStart a | undeclaredSymbol a | undeclaredLeftSide a | ofBothKinds a
  | unwritable a => some a
  | outOfNames => none

def message : GrammarError → String
  | undeclaredStart a => "Start symbol `" ++ a ++ "` is not a nonterminal"
  | undeclaredSymbol a => "Symbol `" ++ a ++ "` is neither a terminal nor a nonterminal"
  | undeclaredLeftSide a => "Rule given for `" ++ a ++ "`, which is not a nonterminal"
  | ofBothKinds a => "`" ++ a ++ "` is declared as both a terminal and a nonterminal"
  | unwritable a => "`" ++ a ++ "` cannot be written as a BNF symbol"
  | outOfNames => "Ran out of names for new nonterminals"

end GrammarError

end ContextFree

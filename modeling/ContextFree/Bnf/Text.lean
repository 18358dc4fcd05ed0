import ContextFree.Grammar.Basic

/-!
Grammars written as BNF, one line for each nonterminal. A nonterminal is a bare word and a terminal
stands between quotes. The start symbol's line comes first, because a reader takes the first line's
nonterminal as the start symbol.
-/

namespace ContextFree

def Symbol.text : Symbol → String
  | .terminal a => "\"" ++ a ++ "\""
  | .nonterminal a => a

/-- The empty alternative is written as a pair of quotes. -/
def Alternative.text (alternative : Alternative) : String :=
  if alternative = [] then "\"\"" else " ".intercalate (alternative.map Symbol.text)

/-- A nonterminal without alternatives has nothing behind the equals sign. -/
def Rule.text (r : Rule) : String :=
  r.name ++ " =" ++
    (if r.alternatives = [] then ""
      else " " ++ " | ".intercalate (r.alternatives.map Alternative.text)) ++ "\n"

namespace Grammar

/-- The rules with the start symbol's rule in front. -/
def startFirst (g : Grammar) : List Rule :=
  g.rules.filter (·.name == g.start) ++ g.rules.filter (·.name != g.start)

def text (g : Grammar) : String := String.join (g.startFirst.map Rule.text)

end Grammar

end ContextFree

import ContextFree.Grammar.Saturation

/-!
Taking nonterminals out of a grammar that derive no sentence. The start symbol stays even when it
derives none; it then has no alternatives left.
-/

namespace ContextFree

namespace Grammar

/-- The nonterminals that derive a sentence, in the order in which passes over the rules find
them. -/
def productive (g : Grammar) : List Name := saturate true [] g.rules

def unproductive (g : Grammar) : List Name := g.outside g.productive

/-- Alternatives that mention a nonterminal without sentences go with it. -/
def withoutUnproductive (g : Grammar) : Grammar :=
  let productive := g.productive
  (g.restrict productive).mapAlternatives (·.filter (Alternative.isKnown true productive))

end Grammar

end ContextFree

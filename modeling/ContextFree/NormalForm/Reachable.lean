import ContextFree.Grammar.Discovery

/-! Taking nonterminals out of a grammar that no derivation from the start symbol meets. -/

namespace ContextFree

/-- The nonterminals that a rule leads to. -/
def Rule.mentions (r : Rule) : List Name := nonterminalsIn r.alternatives

namespace Grammar

/-- The nonterminals that the start symbol leads to, in the order of discovery. -/
def reachable (g : Grammar) : List Name := discover Rule.mentions [g.start] g.rules

def unreachable (g : Grammar) : List Name := g.outside g.reachable

def withoutUnreachable (g : Grammar) : Grammar := g.restrict g.reachable

end Grammar

end ContextFree

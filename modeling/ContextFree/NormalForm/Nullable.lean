import ContextFree.Grammar.Saturation

/-!
Taking empty alternatives out of a grammar. A nonterminal that derives the empty sentence is
nullable; every alternative is replaced by the ways of keeping or dropping its nullable symbols.
-/

namespace ContextFree

namespace Grammar

/-- The nullable nonterminals: first those with an empty alternative, then the others as passes
over the rules find them. -/
def nullable (g : Grammar) : List Name :=
  saturate false ((g.rules.filter (·.alternatives.contains [])).map Rule.name)
    (g.rules.filter (!·.alternatives.contains []))

end Grammar

/-- All ways of keeping or dropping the nullable symbols. Keeping a symbol comes before dropping
it, and earlier symbols decide first. -/
def Alternative.variants (nullable : List Name) : Alternative → List Alternative
  | [] => [[]]
  | s :: rest =>
    let tails := variants nullable rest
    if s.isKnown false nullable then tails.map (s :: ·) ++ tails else tails.map (s :: ·)

namespace Grammar

def withoutEpsilon (g : Grammar) : Grammar :=
  let nullable := g.nullable
  g.mapAlternatives fun alternatives =>
    ((alternatives.flatMap (Alternative.variants nullable)).filter (· != [])).eraseDups

end Grammar

end ContextFree

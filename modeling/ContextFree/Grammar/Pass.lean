import ContextFree.Grammar.Saturation

/-!
The loop that saturates known names, one rule after the other. `saturate` looks only at the rules
whose names are unknown and tells what the loop ends with. Here every pass goes over all rules and
notes whether it found a name, so that it can be said how many passes there are.
-/

namespace ContextFree

/-- Where a pass over the rules stands: the names known so far, and whether this pass found any. -/
structure Pass where
  known : List Name
  changed : Bool
  deriving DecidableEq

namespace Pass

/-- The pass comes to a rule. The rule of a known name is skipped. -/
def visit (terminals : Bool) (p : Pass) (r : Rule) : Pass :=
  if p.known.contains r.name then p
  else if r.isKnown terminals p.known then ⟨p.known ++ [r.name], true⟩
  else p

/-- A whole pass over the rules. -/
def run (terminals : Bool) (rules : List Rule) (known : List Name) : Pass :=
  rules.foldl (visit terminals) ⟨known, false⟩

/-- The given number of passes leads from some known names to others. The last of these passes is
the first one that finds nothing. -/
inductive Repeats (terminals : Bool) (rules : List Rule) : Nat → List Name → List Name → Prop where
  | last {known : List Name} :
      (run terminals rules known).changed = false →
      Repeats terminals rules 1 known (run terminals rules known).known
  | more {n : Nat} {known found : List Name} :
      (run terminals rules known).changed = true →
      Repeats terminals rules n (run terminals rules known).known found →
      Repeats terminals rules (n + 1) known found

end Pass

namespace Grammar

/-- The nonterminals with an empty alternative, with which the search for nullable ones begins. -/
def emptied (g : Grammar) : List Name :=
  (g.rules.filter (·.alternatives.contains [])).map Rule.name

/-- The rules without an empty alternative. -/
def unemptied (g : Grammar) : List Rule := g.rules.filter (!·.alternatives.contains [])

end Grammar

end ContextFree

import ContextFree.Grammar.Basic

/-!
Breadth-first search over the rules of a grammar. The search goes level by level, and its answer
lists the names in the order of discovery.
-/

namespace ContextFree

/-- The rules of the listed names, in the order of the names. -/
def rulesOf (names : List Name) (rules : List Rule) : List Rule :=
  names.filterMap fun a => rules.find? (·.name == a)

/-- The rules of all other names. -/
def rulesExcept (names : List Name) (rules : List Rule) : List Rule :=
  rules.filter fun r => !names.contains r.name

/-- The names that the search finds from one level on, where `next` gives the names that a rule
leads to. The rules are those that no earlier level has visited. -/
def discover (next : Rule → List Name) (level : List Name) (rules : List Rule) : List Name :=
  let visited := rulesOf level rules
  let rest := rulesExcept level rules
  if rest.length < rules.length then
    visited.map Rule.name ++ discover next (visited.flatMap next).eraseDups rest
  else
    []
termination_by rules.length

end ContextFree

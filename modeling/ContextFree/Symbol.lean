/-! The symbols of a context-free grammar and the right-hand sides they form. -/

namespace ContextFree

abbrev Name := String

inductive Symbol where
  | terminal (name : Name)
  | nonterminal (name : Name)
  deriving DecidableEq

namespace Symbol

def name : Symbol → Name
  | terminal a => a
  | nonterminal a => a

def terminal? : Symbol → Option Name
  | terminal a => some a
  | nonterminal _ => none

def nonterminal? : Symbol → Option Name
  | terminal _ => none
  | nonterminal a => some a

theorem terminal?_eq_some_iff {s : Symbol} {a : Name} : s.terminal? = some a ↔ s = terminal a := by
  cases s <;> simp [terminal?]

theorem nonterminal?_eq_some_iff {s : Symbol} {a : Name} :
    s.nonterminal? = some a ↔ s = nonterminal a := by
  cases s <;> simp [nonterminal?]

end Symbol

/-- One right-hand side: the symbols that may stand for a nonterminal, in order. -/
abbrev Alternative := List Symbol

/-- The terminals in a list of alternatives, as often as they occur. -/
def terminalsIn (alternatives : List Alternative) : List Name :=
  alternatives.flatten.filterMap Symbol.terminal?

/-- The nonterminals in a list of alternatives, as often as they occur. -/
def nonterminalsIn (alternatives : List Alternative) : List Name :=
  alternatives.flatten.filterMap Symbol.nonterminal?

theorem mem_terminalsIn {alternatives : List Alternative} {a : Name} :
    a ∈ terminalsIn alternatives ↔ ∃ alternative ∈ alternatives, .terminal a ∈ alternative := by
  simp [terminalsIn, Symbol.terminal?_eq_some_iff, -List.filterMap_flatten]

theorem mem_nonterminalsIn {alternatives : List Alternative} {a : Name} :
    a ∈ nonterminalsIn alternatives ↔
      ∃ alternative ∈ alternatives, .nonterminal a ∈ alternative := by
  simp [nonterminalsIn, Symbol.nonterminal?_eq_some_iff, -List.filterMap_flatten]

end ContextFree

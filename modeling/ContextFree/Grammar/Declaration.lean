import ContextFree.Bnf.Name
import ContextFree.Grammar.Basic
import ContextFree.Grammar.Error

/-!
Grammars from declared names. A declaration lists the nonterminals, the terminals and entries of
the form "this name may be replaced by these lists of names"; several entries may be given for one
name. `Declaration.toGrammar` checks it and sorts the names of every alternative into terminals
and nonterminals.
-/

namespace ContextFree

structure Declaration where
  nonterminals : List Name
  terminals : List Name
  rules : List (Name × List (List Name))
  start : Name

namespace Declaration

/-- The first fault of the declared names themselves. Names that cannot be written come first, then
names of both kinds, then the start symbol. -/
def nameFault? (d : Declaration) : Option GrammarError :=
  ((d.nonterminals.find? (!isBareName ·)).map .unwritable).or <|
  ((d.terminals.find? (!isQuotableName ·)).map .unwritable).or <|
  ((d.nonterminals.find? (d.terminals.contains ·)).map .ofBothKinds).or <|
  if d.start ∈ d.nonterminals then none else some (.undeclaredStart d.start)

/-- The symbol that a name stands for. -/
def symbol (d : Declaration) (a : Name) : Except GrammarError Symbol :=
  if a ∈ d.nonterminals then .ok (.nonterminal a)
  else if a ∈ d.terminals then .ok (.terminal a)
  else .error (.undeclaredSymbol a)

/-- Reads one entry. A name in an alternative is looked up before the name on the left. -/
def rule (d : Declaration) (entry : Name × List (List Name)) : Except GrammarError Rule := do
  let alternatives ← entry.2.mapM fun names => names.mapM d.symbol
  if entry.1 ∈ d.nonterminals then
    return ⟨entry.1, alternatives⟩
  else
    throw (.undeclaredLeftSide entry.1)

/-- The alternatives that the entries for `a` give, in order and without repeats. -/
def collect (entries : List Rule) (a : Name) : List Alternative :=
  ((entries.filter (·.name == a)).flatMap Rule.alternatives).eraseDups

/-- The grammar of a declaration whose entries were read: one rule for each nonterminal, in the
order of declaration. -/
def grammar (d : Declaration) (entries : List Rule) : Grammar where
  nonterminals := d.nonterminals.eraseDups
  terminals := d.terminals.eraseDups
  rules := d.nonterminals.eraseDups.map fun a => ⟨a, collect entries a⟩
  start := d.start

/-- The declared grammar, or the first fault. -/
def toGrammar (d : Declaration) : Except GrammarError Grammar :=
  match d.nameFault? with
  | some fault => .error fault
  | none => do return d.grammar (← d.rules.mapM d.rule)

/-- The names in an alternative that is written with one character for each symbol. -/
def namesOfLetters (text : String) : List Name :=
  if text = emptyWord then [] else text.toList.map String.singleton

/-- A declaration whose alternatives are texts with one character for each symbol. -/
def ofLetters (nonterminals terminals : List Name) (rules : List (Name × List String))
    (start : Name) : Declaration :=
  { nonterminals, terminals, start,
    rules := rules.map fun entry => (entry.1, entry.2.map namesOfLetters) }

end Declaration

end ContextFree

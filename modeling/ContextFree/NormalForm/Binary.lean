import ContextFree.Grammar.FreshName

/-!
Cutting alternatives into pairs of nonterminals. This takes two rounds. The first one cuts long
alternatives: their first two symbols are replaced by a helper for that pair until two symbols are
left. The second one replaces the terminals in alternatives of two symbols by helpers. A helper is
a new nonterminal with one alternative; equal pieces share a helper.
-/

namespace ContextFree

/-- The helpers of a round in the order in which they were made, each with its only alternative,
and the names that are left for more. -/
structure Helpers where
  made : List (Alternative × Name)
  free : List Name

namespace Helpers

def name? (helpers : Helpers) (alternative : Alternative) : Option Name :=
  helpers.made.lookup alternative

def names (helpers : Helpers) : List Name := helpers.made.map Prod.snd

def rules (helpers : Helpers) : List Rule := helpers.made.map fun entry => ⟨entry.2, [entry.1]⟩

/-- Makes a helper, unless there is one for this alternative or no name is left. -/
def make (helpers : Helpers) (alternative : Alternative) : Helpers :=
  match helpers.name? alternative, helpers.free with
  | none, a :: free => ⟨helpers.made ++ [(alternative, a)], free⟩
  | _, _ => helpers

/-- Makes the helpers that cut the alternative `first :: rest` down to two symbols, as far as there
are names. -/
def makePairs (helpers : Helpers) (first : Symbol) : List Symbol → Helpers
  | second :: third :: rest =>
    let helpers := helpers.make [first, second]
    match helpers.name? [first, second] with
    | some a => helpers.makePairs (.nonterminal a) (third :: rest)
    | none => helpers
  | _ => helpers

/-- Makes the helpers of the first round for one alternative. -/
def makeForLong (helpers : Helpers) : Alternative → Helpers
  | [] => helpers
  | first :: rest => helpers.makePairs first rest

/-- The alternative `first :: rest`, cut down to two symbols, if all helpers for that were made. -/
def cutFrom (helpers : Helpers) (first : Symbol) : List Symbol → Option Alternative
  | second :: third :: rest =>
    (helpers.name? [first, second]).bind fun a =>
      helpers.cutFrom (.nonterminal a) (third :: rest)
  | rest => some (first :: rest)

def cut (helpers : Helpers) : Alternative → Option Alternative
  | [] => some []
  | first :: rest => helpers.cutFrom first rest

def makeForTerminal (helpers : Helpers) : Symbol → Helpers
  | .terminal a => helpers.make [.terminal a]
  | .nonterminal _ => helpers

/-- Makes the helpers of the second round for one alternative. -/
def makeForPair (helpers : Helpers) : Alternative → Helpers
  | [first, second] => (helpers.makeForTerminal first).makeForTerminal second
  | _ => helpers

def wrapSymbol (helpers : Helpers) : Symbol → Option Symbol
  | .terminal a => (helpers.name? [.terminal a]).map .nonterminal
  | .nonterminal a => some (.nonterminal a)

/-- Replaces the terminals of an alternative of two symbols, if all helpers for that were made.
Other alternatives stay. -/
def wrap (helpers : Helpers) : Alternative → Option Alternative
  | [first, second] => [first, second].mapM helpers.wrapSymbol
  | alternative => some alternative

end Helpers

/-- Changes the alternatives of one rule after the other, and says whether that went through. When
an alternative cannot be changed, its rule is left without alternatives and the rules behind it
stay as they were. -/
def changeRules (f : Alternative → Option Alternative) : List Rule → Bool × List Rule
  | [] => (true, [])
  | r :: rest =>
    match r.alternatives.mapM f with
    | none => (false, { r with alternatives := [] } :: rest)
    | some alternatives =>
      let (complete, changed) := changeRules f rest
      (complete, { r with alternatives := alternatives.eraseDups } :: changed)

namespace Grammar

/-- The helpers for all alternatives in order, as far as there are names. -/
def gather (g : Grammar) (make : Helpers → Alternative → Helpers) : Helpers :=
  (g.rules.flatMap Rule.alternatives).foldl make ⟨[], g.freeNames⟩

/-- One round: makes the helpers, changes the rules with them and adds the helpers' own rules at
the end. Answers the names of the helpers. -/
def round (g : Grammar) (make : Helpers → Alternative → Helpers)
    (change : Helpers → Alternative → Option Alternative) : Attempt (List Name) :=
  let helpers := g.gather make
  let (complete, rules) := changeRules (change helpers) g.rules
  { result := if complete then .ok helpers.names else .error .outOfNames
    grammar := { g with
      nonterminals := g.nonterminals ++ helpers.names
      rules := rules ++ helpers.rules } }

def cutLong (g : Grammar) : Attempt (List Name) :=
  g.round Helpers.makeForLong Helpers.cut

def wrapTerminals (g : Grammar) : Attempt (List Name) :=
  g.round Helpers.makeForPair Helpers.wrap

/-- Both rounds. When names run out, the grammar stays as far as it got. -/
def binarize (g : Grammar) : Attempt (List Name) :=
  let cut := g.cutLong
  match cut.result with
  | .error fault => ⟨.error fault, cut.grammar⟩
  | .ok pairs =>
    let wrapped := cut.grammar.wrapTerminals
    ⟨wrapped.result.map (pairs ++ ·), wrapped.grammar⟩

end Grammar

end ContextFree

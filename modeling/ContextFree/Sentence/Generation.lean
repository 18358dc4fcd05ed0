import ContextFree.Grammar.Basic
import ContextFree.Sentence.Choice

/-!
Random sentences. A nonterminal is replaced by a randomly chosen alternative, whose nonterminals are
then replaced from left to right, one level deeper.
-/

namespace ContextFree

inductive GenerationError where
  | undefined (name : Name)
  /-- The nonterminal has no alternatives. -/
  | deadEnd (name : Name)
  /-- The derivation got deeper than the limit. -/
  | tooDeep (limit : Nat)
  deriving DecidableEq

def GenerationError.message : GenerationError → String
  | undefined a => "No definition for nonterminal `" ++ a ++ "`"
  | deadEnd a => "Nonterminal `" ++ a ++ "` derives nothing"
  | tooDeep limit => "Derivation deeper than " ++ toString limit ++ " steps"

/-- Computations that draw from a source of choices. A failed one keeps what it has drawn. -/
abbrev Generation (σ : Type) : Type → Type := EStateM GenerationError σ

namespace Generation

variable {σ : Type} [ChoiceSource σ]

/-- One member of the list `x :: xs`. -/
def oneOf {α : Type} (x : α) (xs : List α) : Generation σ α := fun s =>
  let (i, s) := ChoiceSource.choose xs.length s
  .ok ((x :: xs).get i) s

/-- The sentence of an alternative, given how nonterminals are replaced. -/
def spell (derive : Name → Generation σ (List Name)) : Alternative → Generation σ (List Name)
  | [] => pure []
  | .terminal a :: rest => do
    let w ← spell derive rest
    return a :: w
  | .nonterminal a :: rest => do
    let u ← derive a
    let w ← spell derive rest
    return u ++ w

/-- A sentence of a nonterminal with at most `depth` nonterminals on a path, where `limit` is the
depth that an error tells. -/
def derive (g : Grammar) (limit : Nat) : (depth : Nat) → Name → Generation σ (List Name)
  | 0, _ => throw (.tooDeep limit)
  | depth + 1, a =>
    match g.alternatives? a with
    | none => throw (.undefined a)
    | some [] => throw (.deadEnd a)
    | some (x :: xs) => do
      let alternative ← oneOf x xs
      spell (derive g limit depth) alternative

end Generation

namespace Grammar

variable {σ : Type} [ChoiceSource σ]

/-- A random sentence of a nonterminal with at most `limit` nonterminals on a path. -/
def generateFrom (g : Grammar) (limit : Nat) (a : Name) : Generation σ (List Name) :=
  Generation.derive g limit limit a

def generate (g : Grammar) (limit : Nat) : Generation σ (List Name) :=
  g.generateFrom limit g.start

/-- Generates again as long as derivations get too deep, the given number of times. -/
def generateWithin (g : Grammar) (limit : Nat) : (attempts : Nat) → Generation σ (List Name)
  | 0 => throw (.tooDeep limit)
  | attempts + 1 => fun s =>
    match g.generate limit s with
    | .error (.tooDeep _) s => g.generateWithin limit attempts s
    | result => result

/-- A random sentence, for which up to a hundred derivations are tried. -/
def sample (g : Grammar) (limit : Nat) : Generation σ (List Name) := g.generateWithin limit 100

end Grammar

end ContextFree

import ContextFree.Sentence.Generation

/-!
Drawing a sentence level by level. A level knows no more than how many levels are left for it. When
a derivation below it gets too deep, it reports this with its own number, and so the highest level
has the last word.
-/

namespace ContextFree

namespace Generation

variable {σ α : Type}

/-- The computation, where an error for its depth tells the given number of levels. -/
def relimit (depth : Nat) (x : Generation σ α) : Generation σ α := fun s =>
  match x s with
  | .error (.tooDeep _) s => .error (.tooDeep depth) s
  | result => result

/-- Starts over as long as derivations get too deep, the given number of times, and then fails with
the error of the last one. -/
def retry (x : Generation σ α) : (attempts : Nat) → (last : GenerationError) → Generation σ α
  | 0, last => throw last
  | attempts + 1, _ => fun s =>
    match x s with
    | .error (.tooDeep depth) s => retry x attempts (.tooDeep depth) s
    | result => result

/-- A sentence of a nonterminal for which the given number of levels is left. -/
def descend [ChoiceSource σ] (g : Grammar) : (depth : Nat) → Name → Generation σ (List Name)
  | 0, _ => throw (.tooDeep 0)
  | depth + 1, a =>
    match g.alternatives? a with
    | none => throw (.undefined a)
    | some [] => throw (.deadEnd a)
    | some (x :: xs) => do
      let alternative ← oneOf x xs
      spell (fun b => relimit (depth + 1) (descend g depth b)) alternative

end Generation

end ContextFree

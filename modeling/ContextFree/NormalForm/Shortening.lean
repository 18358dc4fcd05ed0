import ContextFree.Grammar.Derivation
import ContextFree.NormalForm.Nullable
import Mathlib.Data.Finset.Insert

/-!
The ways to shorten alternatives, each told by the positions that it drops. `Alternative.variants`
lists what comes out of them.
-/

namespace ContextFree

namespace Alternative

/-- The alternative without the symbols at some positions. Its first symbol is at the position
`n`. -/
def droppingFrom (n : Nat) (dropped : Finset Nat) (alternative : Alternative) : Alternative :=
  ((alternative.zipIdx n).filter (·.2 ∉ dropped)).map Prod.fst

/-- The alternative without the symbols at some positions, which count from zero. -/
def dropping (dropped : Finset Nat) (alternative : Alternative) : Alternative :=
  alternative.droppingFrom 0 dropped

/-- What has been put together so far takes the next symbol in, or is also kept without it if the
symbol is nullable. -/
def lengthen (nullable : List Name) (starts : List Alternative) (s : Symbol) : List Alternative :=
  starts.flatMap fun start =>
    if s.isKnown false nullable then [start ++ [s], start] else [start ++ [s]]

end Alternative

/-- Of the positions that only one of the two drops, the first one is kept by `dropped`. -/
def KeepsFirst (dropped other : Finset Nat) : Prop :=
  ∃ p, p ∉ dropped ∧ p ∈ other ∧ ∀ q < p, (q ∈ dropped ↔ q ∈ other)

/-- A way to shorten an alternative of a nonterminal: which of the alternatives it is, and at which
positions it loses its symbols. -/
structure Shortening where
  index : Nat
  dropped : Finset Nat
  deriving DecidableEq

/-- Earlier alternatives come first. Within one, keeping a symbol comes before dropping it, and
earlier positions decide first. -/
def Shortening.Before (x y : Shortening) : Prop :=
  x.index < y.index ∨ x.index = y.index ∧ KeepsFirst x.dropped y.dropped

namespace Grammar

/-- All the positions hold nonterminals that derive the empty sentence. -/
def MayDrop (g : Grammar) (alternative : Alternative) (dropped : Finset Nat) : Prop :=
  ∀ p ∈ dropped, ∃ a, alternative[p]? = some (.nonterminal a) ∧ g.Generates a []

/-- The way `x` to shorten an alternative of `a` leaves `variant`. -/
def Shortens (g : Grammar) (a : Name) (x : Shortening) (variant : Alternative) : Prop :=
  ∃ alternative, (g.alternatives a)[x.index]? = some alternative ∧
    g.MayDrop alternative x.dropped ∧ alternative.dropping x.dropped = variant

end Grammar

end ContextFree

import ContextFree.Path

/-! Where an error was found, and how an error is shown with its place. -/

namespace ContextFree

/-- A line of a file, counted from one, or the file as a whole. -/
structure Location where
  path : String
  line? : Option Nat
  deriving DecidableEq

namespace Location

def whole (path : String) : Location := ⟨path, none⟩

def text (l : Location) : String :=
  match l.line? with
  | none => l.path
  | some n => l.path ++ ":" ++ toString n

/-- The same line of the same file, where a file may be written in several ways. -/
def Same (l m : Location) : Prop :=
  Path.components l.path = Path.components m.path ∧ l.line? = m.line?

instance (l m : Location) : Decidable (Same l m) := inferInstanceAs (Decidable (_ ∧ _))

end Location

structure Located (ε : Type) where
  location : Location
  error : ε

/-- The place in brackets and the message. A terminal shows both in bold and the place in red. -/
def Located.text {ε : Type} (message : ε → String) (e : Located ε) : String :=
  "\x1b[31;49;1m[" ++ e.location.text ++ "]\x1b[39;49;1m  " ++ message e.error ++ "\x1b[0m"

end ContextFree

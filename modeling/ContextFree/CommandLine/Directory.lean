import ContextFree.Bnf.Error
import ContextFree.Path

/-!
A directory with the files in it and below it, and what opening a path gives. A path is walked piece
by piece, and the walk ends at the first piece that leads nowhere. Nothing is known to lie outside
the directory.
-/

namespace ContextFree

/-- Paths of files, as seen from the directory, and their contents. -/
abbrev Directory := List (String × ByteArray)

namespace Directory

/-- The bytes that a path may have. -/
def maxPathSize : Nat := 4095

/-- The bytes that a single name may have. -/
def maxNameSize : Nat := 255

/-- Where a walk has come to: the names below the directory, or nothing outside of it. -/
abbrev Place := Option (List String)

def namesOf (path : String) : List String := (Path.components path).filter (· != ".")

/-- The content of the file with these names on the way to it. -/
def file? (d : Directory) (names : List String) : Option ByteArray :=
  (d.find? fun file => namesOf file.1 = names).map Prod.snd

/-- Whether these names lead to a file or to a directory on the way to one. -/
def has (d : Directory) (names : List String) : Bool :=
  d.any fun file => names.isPrefixOf (namesOf file.1)

/-- Goes on to a name. A name that is too long is refused before it is looked for. -/
def enter (d : Directory) (place : Place) (name : String) : Except FileError Place :=
  if maxNameSize < name.utf8ByteSize then .error .nameTooLong
  else match place with
    | none => .error .notFound
    | some names =>
      if d.has (names ++ [name]) then .ok (some (names ++ [name])) else .error .notFound

/-- The place around a place. -/
def leave : Place → Place
  | none => none
  | some [] => none
  | some names => some names.dropLast

/-- Walks one piece of a path. No piece leads on from a file, not even an empty one. -/
def step (d : Directory) (place : Place) (piece : String) : Except FileError Place :=
  if (place.bind d.file?).isSome then .error .notDirectory
  else if piece = "" || piece = "." then .ok place
  else if piece = ".." then .ok (leave place)
  else d.enter place piece

/-- The content of the file at a path. A directory has none. -/
def content (d : Directory) (path : String) : Except FileError ByteArray :=
  if maxPathSize < path.utf8ByteSize then .error .nameTooLong
  else do
    let start : Place := if path.toList.head? = some '/' then none else some []
    let place ← ((path.toList.splitOn '/').map String.ofList).foldlM d.step start
    match place.bind d.file? with
    | some bytes => .ok bytes
    | none => .error .notFound

end Directory

end ContextFree

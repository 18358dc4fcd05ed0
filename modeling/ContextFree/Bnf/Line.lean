import ContextFree.Bnf.Blank

/-!
The lines of a grammar file. A line feed ends a line and takes a carriage return in front of it
along. What follows the last line feed is a line of its own unless it is empty.
-/

namespace ContextFree

namespace Line

/-- The pieces that end with `mark`, without it, and the piece behind the last one. -/
def pieces {α : Type} [BEq α] (mark : α) (xs : List α) : List (List α) × List α :=
  let all := xs.splitOn mark
  (all.dropLast, all.getLast?.getD [])

def dropReturn (line : List Char) : List Char :=
  if line.getLast? = some '\r' then line.dropLast else line

def ofText (text : String) : List (List Char) :=
  let (ended, last) := pieces '\n' text.toList
  ended.map dropReturn ++ if last = [] then [] else [last]

/-- The characters that bytes stand for in UTF-8, if they do. -/
def decode (bytes : List UInt8) : Option (List Char) :=
  (String.fromUTF8? ⟨bytes.toArray⟩).map String.toList

/-- The lines of a file. A line that is not UTF-8 is kept as nothing. -/
def ofBytes (bytes : ByteArray) : List (Option (List Char)) :=
  let (ended, last) := pieces 0x0A bytes.data.toList
  ended.map (fun line => (decode line).map dropReturn) ++ if last = [] then [] else [decode last]

/-- Whether a line is meant as a rule: it is neither blank nor a comment. -/
def isRule (line : List Char) : Bool :=
  match line.dropWhile isBlank with
  | [] => false
  | c :: _ => c != ';'

end Line

end ContextFree

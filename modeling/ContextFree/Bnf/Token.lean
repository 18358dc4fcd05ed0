import ContextFree.Bnf.Name

/-!
The words of a line of BNF. `=` and `|` stand for themselves, a name between quotes may hold every
character but a quote, and a bare word goes on up to the next delimiter. Blanks only separate.
-/

namespace ContextFree

inductive Token where
  | equals
  | bar
  /-- The bare word for the empty alternative. -/
  | epsilon
  | word (name : Name)
  | quoted (name : Name)
  deriving DecidableEq

namespace Token

def isWordChar (c : Char) : Bool := !endsWord c

def ofWord (name : Name) : Token :=
  if name = emptyWord then epsilon else word name

def beforeQuote (cs : List Char) : List Char := cs.takeWhile (· != '"')

def behindQuote (cs : List Char) : List Char := (cs.dropWhile (· != '"')).drop 1

theorem length_behindQuote_le (cs : List Char) : (behindQuote cs).length ≤ cs.length := by
  have h := (List.dropWhile_suffix (l := cs) (· != '"')).length_le
  simp only [behindQuote, List.length_drop]
  omega

theorem length_dropWhile_isWordChar_le (cs : List Char) :
    (cs.dropWhile isWordChar).length ≤ cs.length :=
  (List.dropWhile_suffix _).length_le

/-- The tokens of a line, or nothing if a quote is not closed. -/
def scan : List Char → Option (List Token)
  | [] => some []
  | c :: cs =>
    if isBlank c then
      scan cs
    else if c = '=' then
      (scan cs).map (equals :: ·)
    else if c = '|' then
      (scan cs).map (bar :: ·)
    else if c = '"' then
      if cs.contains '"' then
        (scan (behindQuote cs)).map (quoted (String.ofList (beforeQuote cs)) :: ·)
      else
        none
    else
      (scan (cs.dropWhile isWordChar)).map
        (ofWord (String.ofList (c :: cs.takeWhile isWordChar)) :: ·)
termination_by cs => cs.length
decreasing_by
  · simp
  · simp
  · simp
  · exact Nat.lt_succ_of_le (length_behindQuote_le cs)
  · exact Nat.lt_succ_of_le (length_dropWhile_isWordChar_le cs)

/-- The symbol that a token adds to an alternative. Words and quotes for the empty alternative add
none. -/
def symbol? : Token → Option Symbol
  | word a => some (.nonterminal a)
  | quoted a => if a = "" then none else some (.terminal a)
  | _ => none

/-- The alternatives that tokens behind an equals sign stand for. No tokens at all are no
alternatives. -/
def alternatives (tokens : List Token) : List Alternative :=
  if tokens = [] then [] else (tokens.splitOn bar).map (·.filterMap symbol?)

end Token

end ContextFree

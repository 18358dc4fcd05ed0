import ContextFree.Bnf.Error
import ContextFree.Bnf.Line
import ContextFree.Bnf.Token
import ContextFree.Grammar.Declaration
import ContextFree.Location

/-!
Reading grammars from BNF. Every line that is meant as a rule has the form `name = alternatives`.
The names on the left are the nonterminals and the quoted names are the terminals. Errors of single
lines are collected over the whole file; only if there are none, the rules are looked at together.
-/

namespace ContextFree

/-- A line that was read as a rule. -/
structure RuleLine extends Rule where
  number : Nat
  deriving DecidableEq

namespace RuleLine

/-- Reads the tokens between two bars as one alternative. -/
def readAlternative : List Token → Except ReadError Alternative
  | [] => .ok []
  | .equals :: _ => .error .secondEquals
  | .bar :: _ => .error .unsplit
  | t :: rest => (readAlternative rest).map (t.symbol?.toList ++ ·)

/-- Reads the tokens behind an equals sign. No tokens at all are no alternatives. -/
def readAlternatives (tokens : List Token) : Except ReadError (List Alternative) :=
  if tokens = [] then .ok [] else (tokens.splitOn .bar).mapM readAlternative

/-- Reads the tokens of a line as a name and its alternatives. -/
def parse : List Token → Except ReadError (Name × List Alternative)
  | .word a :: .equals :: rest => (readAlternatives rest).map (a, ·)
  | .word _ :: _ => .error .noEquals
  | _ :: _ => .error .noLeftSide
  | [] => .error .blankLine

def read (line : List Char) : Except ReadError (Name × List Alternative) :=
  match Token.scan line with
  | none => .error .openQuote
  | some tokens => parse tokens

/-- Reads one line, of which nothing is left if it could not be decoded. Blank lines and comments
give nothing. -/
def ofLine (path : String) (number : Nat) :
    Option (List Char) → Option (Except (Located ReadError) RuleLine)
  | none => some (.error ⟨.whole path, .unreadable .undecodable⟩)
  | some line =>
    if Line.isRule line then
      some <| match read line with
        | .ok (name, alternatives) => .ok ⟨⟨name, alternatives⟩, number⟩
        | .error e => .error ⟨⟨path, some number⟩, e⟩
    else
      none

def error? : Except (Located ReadError) RuleLine → Option (Located ReadError)
  | .error e => some e
  | .ok _ => none

/-- What the lines give one by one, the first of them having the given number. -/
def results (path : String) (first : Nat) (lines : List (Option (List Char))) :
    List (Except (Located ReadError) RuleLine) :=
  (lines.zipIdx first).filterMap fun (line, number) => ofLine path number line

/-- All rules of a file, or all errors of its lines. -/
def ofLines (path : String) (lines : List (Option (List Char))) :
    Except (List (Located ReadError)) (List RuleLine) :=
  match (results path 1 lines).filterMap error? with
  | [] => .ok ((results path 1 lines).filterMap Except.toOption)
  | errors => .error errors

/-- One error for each occurrence of a nonterminal that no line defines. -/
def undefined (path : String) (rules : List RuleLine) : List (Located ReadError) :=
  let defined := rules.map (·.name)
  rules.flatMap fun r =>
    ((nonterminalsIn r.alternatives).filter (!defined.contains ·)).map fun a =>
      ⟨⟨path, some r.number⟩, .undefinedName a⟩

def declaration (rules : List RuleLine) (start : Name) : Declaration where
  nonterminals := rules.map (·.name)
  terminals := rules.flatMap fun r => terminalsIn r.alternatives
  rules := rules.map fun r => (r.name, r.alternatives.map fun names => names.map Symbol.name)
  start := start

/-- The grammar of all rules of a file. Unless a start symbol is given it is the first rule's. -/
def toGrammar (path : String) (start : Option Name) (rules : List RuleLine) :
    Except (List (Located ReadError)) Grammar :=
  match rules with
  | [] => .error [⟨.whole path, .noRules⟩]
  | first :: _ =>
    match undefined path rules with
    | [] => (declaration rules (start.getD first.name)).toGrammar.mapError
        fun fault => [⟨.whole path, .incoherent fault⟩]
    | errors => .error errors

end RuleLine

/-- Whether two readings failed alike: with errors of the same kinds at the same places. -/
def ReadError.alike : List (Located ReadError) → List (Located ReadError) → Bool
  | [], [] => true
  | e :: es, e' :: es' =>
    e.location.Same e'.location && e.error.SameKind e'.error && alike es es'
  | _, _ => false

namespace Grammar

/-- Reads a grammar from lines, where `path` is for the errors only. -/
def ofLines (path : String) (start : Option Name) (lines : List (Option (List Char))) :
    Except (List (Located ReadError)) Grammar := do
  RuleLine.toGrammar path start (← RuleLine.ofLines path lines)

def ofText (path : String) (start : Option Name) (text : String) :
    Except (List (Located ReadError)) Grammar :=
  ofLines path start ((Line.ofText text).map some)

def ofBytes (path : String) (start : Option Name) (bytes : ByteArray) :
    Except (List (Located ReadError)) Grammar :=
  ofLines path start (Line.ofBytes bytes)

end Grammar

end ContextFree

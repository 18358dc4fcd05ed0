import ContextFree.Symbol

/-!
The arguments of the command line: one file, and options in front of it or behind it. An option is
given once at most, and a lone `--` ends the options. The first argument that breaks a rule, or asks
for the help or the version, decides what happens.
-/

namespace ContextFree

structure Arguments where
  file : String
  /-- The start symbol, if it is not to be the first one of the file. -/
  start : Option Name
  /-- Show the grammar after every stage. -/
  steps : Bool
  /-- Only tell whether the grammar is in normal form. -/
  check : Bool
  /-- The number of random sentences. -/
  amount : Nat
  deriving DecidableEq

namespace Arguments

/-- Why there is nothing to run. -/
inductive Stop where
  /-- The arguments break a rule. -/
  | usage
  | help
  | version
  deriving DecidableEq

def usageText : String := "Usage: chomsky [OPTIONS] <FILE>\n"

def helpText : String :=
  usageText ++ "\n" ++
  "Arguments:\n" ++
  "  <FILE>  File containing the grammar\n" ++
  "\n" ++
  "Options:\n" ++
  "  -s, --start <SYMBOL>   Start symbol (default: first in the file)\n" ++
  "      --steps            Print the grammar after every stage of the conversion\n" ++
  "      --check            Only tell whether the grammar is already in Chomsky normal form\n" ++
  "  -n, --amount <AMOUNT>  Random sentences to print from the converted grammar (default: 0)\n" ++
  "  -h, --help             Print help\n" ++
  "  -V, --version          Print version\n"

/-- One argument taken alone. The value of an option may be missing, as it may be the next one. -/
inductive Word where
  | separator
  | file (path : String)
  | steps
  | check
  | start (value? : Option String)
  | amount (value? : Option String)
  | help
  | version
  | unknown
  deriving DecidableEq

/-- The value that is written in one argument with a short option, with or without `=`. -/
def attached : List Char → Option String
  | [] => none
  | '=' :: value => some (String.ofList value)
  | value => some (String.ofList value)

/-- The part of a long option behind its first `=`. -/
def behindEquals (option : List Char) : Option String :=
  match option.dropWhile (· != '=') with
  | [] => none
  | _ :: value => some (String.ofList value)

def longOption (option : List Char) : Word :=
  match String.ofList (option.takeWhile (· != '=')), behindEquals option with
  | "steps", none => .steps
  | "check", none => .check
  | "start", value? => .start value?
  | "amount", value? => .amount value?
  | "help", none => .help
  | "version", none => .version
  | _, _ => .unknown

def shortOption (letter : Char) (rest : List Char) : Word :=
  if letter = 's' then .start (attached rest)
  else if letter = 'n' then .amount (attached rest)
  else if letter = 'h' then .help
  else if letter = 'V' then .version
  else .unknown

def word (argument : String) : Word :=
  match argument.toList with
  | ['-', '-'] => .separator
  | '-' :: '-' :: option => longOption option
  | '-' :: letter :: rest => shortOption letter rest
  | _ => .file argument

/-- Whether an argument can be the value of the option in front of it. -/
def isValue (argument : String) : Bool :=
  argument.toList.head? != some '-' || argument = "-"

/-- A number of at most 32 bits in decimal digits, possibly with a sign. -/
def amountOfText (text : String) : Option Nat :=
  let (negative, digits) := match text.toList with
    | '-' :: digits => (true, digits)
    | '+' :: digits => (false, digits)
    | digits => (false, digits)
  if digits = [] || !digits.all Char.isDigit then
    none
  else
    let n := Nat.ofDigitChars 10 digits 0
    if n < 0x100000000 && (n = 0 || !negative) then some n else none

/-- What the arguments so far have said. -/
structure Settings where
  file : Option String := none
  start : Option Name := none
  steps : Bool := false
  check : Bool := false
  amount : Option Nat := none

namespace Settings

/-- New settings, unless what they add was told before. -/
def once (told : Bool) (p : Settings) : Except Stop Settings :=
  if told then .error .usage else .ok p

def setFile (p : Settings) (path : String) : Except Stop Settings :=
  if path = "" then .error .usage else once p.file.isSome { p with file := some path }

def setStart (p : Settings) (value : String) : Except Stop Settings :=
  once p.start.isSome { p with start := some value }

def setAmount (p : Settings) (value : String) : Except Stop Settings :=
  match amountOfText value with
  | none => .error .usage
  | some n => once p.amount.isSome { p with amount := some n }

def setSteps (p : Settings) : Except Stop Settings := once p.steps { p with steps := true }

def setCheck (p : Settings) : Except Stop Settings := once p.check { p with check := true }

/-- There has to be a file, and the grammar after every stage cannot be shown when the normal form
is only checked. -/
def finish (p : Settings) : Except Stop Arguments :=
  match p.file with
  | none => .error .usage
  | some file =>
    if p.steps && p.check then .error .usage
    else .ok ⟨file, p.start, p.steps, p.check, p.amount.getD 0⟩

/-- Takes in the arguments that follow. -/
def read (p : Settings) : List String → Except Stop Settings
  | [] => .ok p
  | argument :: rest =>
    match word argument, rest with
    | .separator, rest => rest.foldlM setFile p
    | .file path, rest => do read (← p.setFile path) rest
    | .steps, rest => do read (← p.setSteps) rest
    | .check, rest => do read (← p.setCheck) rest
    | .start (some value), rest => do read (← p.setStart value) rest
    | .amount (some value), rest => do read (← p.setAmount value) rest
    | .start none, value :: rest =>
      if isValue value then do read (← p.setStart value) rest else .error .usage
    | .amount none, value :: rest =>
      if isValue value then do read (← p.setAmount value) rest else .error .usage
    | .start none, [] => .error .usage
    | .amount none, [] => .error .usage
    | .help, _ => .error .help
    | .version, _ => .error .version
    | .unknown, _ => .error .usage

end Settings

/-- The meaning of the arguments, or why there is nothing to run. -/
def interpret (arguments : List String) : Except Stop Arguments := do
  (← Settings.read {} arguments).finish

/-- The meaning of the arguments, if they ask for a run. -/
def parse (arguments : List String) : Option Arguments := (interpret arguments).toOption

end Arguments

end ContextFree

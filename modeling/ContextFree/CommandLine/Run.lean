import ContextFree.Bnf.Reading
import ContextFree.Bnf.Text
import ContextFree.CommandLine.Arguments
import ContextFree.NormalForm.Conversion
import ContextFree.Sentence.Generation

/-!
What the program prints: the grammar as it was read, if asked for the grammar after each stage, then
notes on the conversion, the normal form, and random sentences of it.
-/

namespace ContextFree

/-- What a run leaves behind. -/
structure Output where
  status : Nat
  stdout : String
  stderr : String
  deriving DecidableEq

namespace Output

/-- The bound on the depth of random sentences. Converted grammars nest deeper because of the
helpers. -/
def depthLimit : Nat := 64

def titled (heading : String) (g : Grammar) : String := heading ++ ":\n" ++ g.text ++ "\n"

def failure (stdout : String) {ε : Type} (message : ε → String) (errors : List (Located ε)) :
    Output :=
  ⟨1, stdout, String.join (errors.map fun e => e.text message ++ "\n")⟩

/-- The answer to whether the grammar has the normal form. -/
def checked (file : String) (g : Grammar) : String :=
  file ++
    if g.isNormal then " is in Chomsky normal form\n" else " is not in Chomsky normal form\n"

/-- The lines in front of the normal form. -/
def notes (steps : Bool) (report : Report) (g : Grammar) : String :=
  (if report.alreadyNormal then "Already in Chomsky normal form\n\n" else "") ++
  (if steps && !report.alreadyNormal then
    "Nullable nonterminals: " ++ ", ".intercalate report.nullable ++ "\n"
  else "") ++
  (if report.startNullable then
    "Note: `" ++ g.start ++ "` derives the empty sentence, which the converted grammar cannot\n"
  else "") ++
  (if g.startIsBarren then "Note: the grammar generates no sentences\n" else "")

/-- Prints random sentences, a line each, up to the first failure. -/
def sentences {σ : Type} [ChoiceSource σ] (file : String) (g : Grammar) :
    (amount : Nat) → (stdout : String) → σ → Output
  | 0, stdout, _ => ⟨0, stdout, ""⟩
  | amount + 1, stdout, source =>
    match g.sample depthLimit source with
    | .ok sentence source => sentences file g amount (stdout ++ String.join sentence ++ "\n") source
    | .error e _ => failure stdout GenerationError.message [⟨.whole file, e⟩]

/-- Converts a grammar and prints what came of it. -/
def converted {σ : Type} [ChoiceSource σ] (arguments : Arguments) (g : Grammar) (source : σ) :
    Output :=
  let conversion := g.convert
  let before := Output.titled "Original grammar" g ++
    if arguments.steps then
      String.join (conversion.snapshots.map fun s => Output.titled s.1.heading s.2)
    else ""
  match conversion.result with
  | .error fault => failure before GrammarError.message [⟨.whole arguments.file, fault⟩]
  | .ok report =>
    sentences arguments.file conversion.grammar arguments.amount
      (before ++ notes arguments.steps report conversion.grammar ++
        Output.titled "Chomsky normal form" conversion.grammar) source

end Output

/-- What is printed if there is nothing to run. -/
def Arguments.Stop.output : Arguments.Stop → Output
  | .usage => ⟨2, "", Arguments.usageText⟩
  | .help => ⟨0, Arguments.helpText, ""⟩
  | .version => ⟨0, "chomsky 0.1.0\n", ""⟩

/-- A run of the program, where `content` is what opening the file gave. -/
def Arguments.run {σ : Type} [ChoiceSource σ] (arguments : Arguments)
    (content : Except FileError ByteArray) (source : σ) : Output :=
  let file := arguments.file
  let reading : Except (List (Located ReadError)) Grammar :=
    match content with
    | .error fault => .error [⟨.whole file, .unreadable fault⟩]
    | .ok bytes => Grammar.ofBytes file arguments.start bytes
  match reading with
  | .error errors => .failure "" ReadError.message errors
  | .ok g =>
    if arguments.check then ⟨0, Output.checked file g, ""⟩
    else Output.converted arguments g source

end ContextFree

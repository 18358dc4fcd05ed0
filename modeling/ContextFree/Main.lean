import ContextFree.CommandLine.Run

/-! The program: reads the file that its arguments name and prints what the run gives. -/

namespace ContextFree

/-- The number of an error of the system, which some calls give with a minus, and what is said of
it. -/
def systemFault? : IO.Error → Option (Nat × String)
  | .alreadyExists _ code words | .interrupted _ code words | .noFileOrDirectory _ code words
  | .invalidArgument _ code words | .permissionDenied _ code words
  | .resourceExhausted _ code words | .inappropriateType _ code words | .noSuchThing _ code words
  | .otherError code words | .resourceBusy code words | .resourceVanished code words
  | .unsupportedOperation code words | .hardwareFault code words
  | .unsatisfiedConstraints code words | .illegalOperation code words | .protocolError code words
  | .timeExpired code words => some (code.toInt32.toInt.natAbs, words)
  | .unexpectedEof | .userError _ => none

/-- The words of the C library for the errors that opening a file can give, as far as they are not
`FileError`s. Those that come with an `IO.Error` may be others. -/
def systemWords? : Nat → Option String
  | 1 => some "Operation not permitted"
  | 6 => some "No such device or address"
  | 12 => some "Cannot allocate memory"
  | 13 => some "Permission denied"
  | 19 => some "No such device"
  | 23 => some "Too many open files in system"
  | 24 => some "Too many open files"
  | 40 => some "Too many levels of symbolic links"
  | _ => none

/-- The message for an error of the system. -/
def systemMessage (e : IO.Error) : String :=
  "File error: " ++
    match systemFault? e with
    | some (n, words) => (systemWords? n).getD words ++ " (os error " ++ toString n ++ ")"
    | none => toString e

/-- The content of a file, or why opening it failed. Errors that have nothing to do with the path,
such as a missing permission, are thrown. -/
def readContent (path : String) : IO (Except FileError ByteArray) := do
  try
    return .ok (← IO.FS.readBinFile path)
  catch e =>
    match systemFault? e with
    | some (2, _) => return .error .notFound
    | some (20, _) => return .error .notDirectory
    | some (36, _) => return .error .nameTooLong
    | _ => throw e

/-- A run on the file that the arguments name. -/
def runOnFile (arguments : Arguments) : IO Output := do
  try
    let content ← readContent arguments.file
    let seed ← IO.rand 0 0xFFFFFFFF
    return arguments.run content (Words.ofSeed [] seed.toUInt64)
  catch e =>
    return .failure "" systemMessage [⟨.whole arguments.file, e⟩]

end ContextFree

def main (arguments : List String) : IO UInt32 := do
  let output ← match ContextFree.Arguments.interpret arguments with
    | .ok arguments => ContextFree.runOnFile arguments
    | .error stop => pure stop.output
  IO.print output.stdout
  IO.eprint output.stderr
  return output.status.toUInt32

import ContextFree.Grammar.Error

/-! What can be wrong with a grammar file. -/

namespace ContextFree

/-- Why a file cannot be read. -/
inductive FileError where
  | notFound
  | notDirectory
  | nameTooLong
  | undecodable
  deriving DecidableEq

def FileError.message : FileError → String
  | notFound => "No such file or directory (os error 2)"
  | notDirectory => "Not a directory (os error 20)"
  | nameTooLong => "File name too long (os error 36)"
  | undecodable => "stream did not contain valid UTF-8"

inductive ReadError where
  | noEquals
  | secondEquals
  | noLeftSide
  | openQuote
  | undefinedName (name : Name)
  /-- A bar is left in a single alternative. -/
  | unsplit
  /-- A line without a word is taken for a rule. -/
  | blankLine
  | noRules
  | incoherent (fault : GrammarError)
  | unreadable (fault : FileError)
  deriving DecidableEq

namespace ReadError

def message : ReadError → String
  | noEquals => "Expected `=` after nonterminal"
  | secondEquals => "Unexpected `=` encountered"
  | noLeftSide => "Tried to define something other than a nonterminal"
  | openQuote => "Unmatched quotes"
  | undefinedName a => "Could not find definition for `" ++ a ++ "`"
  | unsplit =>
    "Rewrite was not fully split (this is a problem with chomsky, not the grammar)"
  | blankLine =>
    "Blank line encountered in rule parser (this is a problem with chomsky, not the grammar)"
  | noRules => "No rules found"
  | incoherent fault => "Invalid grammar: " ++ fault.message
  | unreadable fault => "File error: " ++ fault.message

/-- Errors of one kind. The name of an undefined nonterminal does not matter; what is wrong with
the grammar or the file does. -/
def SameKind : ReadError → ReadError → Prop
  | undefinedName _, undefinedName _ => True
  | e, e' => e = e'

instance (e e' : ReadError) : Decidable (SameKind e e') := by
  unfold SameKind
  split <;> infer_instance

end ReadError

end ContextFree

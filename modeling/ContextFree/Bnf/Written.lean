import ContextFree.Bnf.Line
import ContextFree.Bnf.Token
import ContextFree.Grammar.Basic
import Mathlib.Data.List.Forall2

/-!
What a text of BNF writes, apart from how it is read: which lines are rules, what stands in them,
when the rules fit together, and which grammar they are.
-/

namespace ContextFree

/-- The first character that is no blank is there, and it does not begin a comment. -/
def Line.IsRuleLine (line : List Char) : Prop :=
  ∃ c, line.find? (!isBlank ·) = some c ∧ c ≠ ';'

namespace Token

/-- Tokens without bars and the alternative that they write: bare words are nonterminals and quoted
names are terminals. The word and the quotes for the empty alternative vanish. -/
inductive Spell : List Token → Alternative → Prop where
  | nil : Spell [] []
  | word {a : Name} {tokens : List Token} {alternative : Alternative} :
      Spell tokens alternative → Spell (.word a :: tokens) (.nonterminal a :: alternative)
  | quoted {a : Name} {tokens : List Token} {alternative : Alternative} :
      a ≠ "" → Spell tokens alternative → Spell (.quoted a :: tokens) (.terminal a :: alternative)
  | epsilon {tokens : List Token} {alternative : Alternative} :
      Spell tokens alternative → Spell (.epsilon :: tokens) alternative
  | empty {tokens : List Token} {alternative : Alternative} :
      Spell tokens alternative → Spell (.quoted "" :: tokens) alternative

/-- What may stand behind the equals sign of a rule, and the alternatives that it writes. -/
inductive RightSide : List Token → List Alternative → Prop where
  | nothing : RightSide [] []
  | bars {pieces : List (List Token)} {alternatives : List Alternative} :
      [bar].intercalate pieces ≠ [] → List.Forall₂ Spell pieces alternatives →
      RightSide ([bar].intercalate pieces) alternatives

/-- The nonterminal that a token names. -/
def word? : Token → Option Name
  | word a => some a
  | _ => none

theorem word?_eq_some_iff {t : Token} {a : Name} : t.word? = some a ↔ t = word a := by
  cases t <;> simp [word?]

/-- The terminal that a token names. -/
def terminal? : Token → Option Name
  | quoted a => if a = "" then none else some a
  | _ => none

theorem terminal?_eq_some_iff {t : Token} {a : Name} :
    t.terminal? = some a ↔ a ≠ "" ∧ t = quoted a := by
  cases t with
  | quoted b =>
    unfold terminal?
    split <;> simp_all [eq_comm]
  | _ => simp [terminal?]

end Token

/-- A rule together with the tokens that write its alternatives. -/
structure WrittenRule extends Rule where
  tokens : List Token
  rightSide : Token.RightSide tokens alternatives

/-- All quotes of the line are closed, and it has the rule's name, an equals sign and the tokens of
the rule's alternatives. -/
def Line.Writes (line : List Char) (r : WrittenRule) : Prop :=
  line.count '"' % 2 = 0 ∧ Token.scan line = some (.word r.name :: .equals :: r.tokens)

/-- The rules of lines, in order. All other lines are blank or comments. -/
inductive Transcript : List (List Char) → List WrittenRule → Prop where
  | nil : Transcript [] []
  | skip {line : List Char} {lines : List (List Char)} {rules : List WrittenRule} :
      ¬ Line.IsRuleLine line → Transcript lines rules → Transcript (line :: lines) rules
  | rule {line : List Char} {lines : List (List Char)} {r : WrittenRule}
      {rules : List WrittenRule} :
      Line.IsRuleLine line → Line.Writes line r → Transcript lines rules →
      Transcript (line :: lines) (r :: rules)

/-- A rule that a line writes and the number of the line. -/
structure NumberedRule extends WrittenRule where
  number : Nat

/-- The rules of lines, in order and with their numbers. All other lines are blank or comments. The
first line has the given number. -/
inductive NumberedTranscript : Nat → List (List Char) → List NumberedRule → Prop where
  | nil {number : Nat} : NumberedTranscript number [] []
  | skip {number : Nat} {line : List Char} {lines : List (List Char)} {rules : List NumberedRule} :
      ¬ Line.IsRuleLine line → NumberedTranscript (number + 1) lines rules →
      NumberedTranscript number (line :: lines) rules
  | rule {number : Nat} {line : List Char} {lines : List (List Char)} {r : WrittenRule}
      {rules : List NumberedRule} :
      Line.IsRuleLine line → Line.Writes line r → NumberedTranscript (number + 1) lines rules →
      NumberedTranscript number (line :: lines) (⟨r, number⟩ :: rules)

namespace WrittenRule

/-- The names on the left sides. -/
def names (rules : List WrittenRule) : List Name := rules.map (·.name)

/-- Rules that make a grammar with the given start symbol, or that of the first rule. -/
structure Coherent (start : Option Name) (rules : List WrittenRule) : Prop where
  ne_nil : rules ≠ []
  /-- Every bare word is the left side of some rule. -/
  defined : ∀ r ∈ rules, ∀ a, .word a ∈ r.tokens → a ∈ names rules
  /-- Nothing between quotes is the left side of some rule. -/
  distinct : ∀ r ∈ rules, ∀ a, .quoted a ∈ r.tokens → a ∉ names rules
  start_mem : ∀ a, start = some a → a ∈ names rules

/-- The grammar that rules write. Its nonterminals are the names on the left sides, its terminals
are the names between quotes, and a nonterminal has the alternatives of all its rules, each of them
in order and without repeats. -/
def grammar (rules : List WrittenRule) (start : Name) : Grammar where
  nonterminals := (names rules).eraseDups
  terminals := ((rules.flatMap (·.tokens)).filterMap Token.terminal?).eraseDups
  rules := (names rules).eraseDups.map fun a =>
    ⟨a, ((rules.filter (·.name == a)).flatMap (·.alternatives)).eraseDups⟩
  start := start

end WrittenRule

end ContextFree

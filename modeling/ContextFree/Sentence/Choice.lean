/-!
Choices among a number of things, drawn from a source of random words. A word of 32 bits is scaled
to an index. Words that would make some index likelier than others are thrown away. A row of choices
tells what a source answers when it is asked again and again.
-/

namespace ContextFree

/-- A source of choices: `choose n s` picks one of `n + 1` things and goes on with a new source. -/
class ChoiceSource (σ : Type) where
  choose (n : Nat) (s : σ) : Fin (n + 1) × σ

/-- Random words: first those that are given, then the high halves of a 64-bit linear congruential
generator. The words that were drawn are counted. -/
structure Words where
  given : List UInt32
  state : UInt64
  drawn : Nat

namespace Words

def ofSeed (given : List UInt32) (seed : UInt64) : Words := ⟨given, seed, 0⟩

def step (state : UInt64) : UInt64 := state * 6364136223846793005 + 1442695040888963407

def next (s : Words) : UInt32 × Words :=
  match s.given with
  | word :: given => (word, ⟨given, s.state, s.drawn + 1⟩)
  | [] => ((step s.state >>> 32).toUInt32, ⟨[], step s.state, s.drawn + 1⟩)

/-- How many words of 32 bits there are. -/
def wordCount : Nat := 0x100000000

/-- The index among `n + 1` things that a word stands for. -/
def index (word : UInt32) (n : Nat) : Fin (n + 1) :=
  ⟨word.toNat * (n + 1) / wordCount, by
    rw [Nat.div_lt_iff_lt_mul (by decide), Nat.mul_comm (n + 1)]
    exact Nat.mul_lt_mul_of_pos_right word.toNat_lt (Nat.succ_pos n)⟩

/-- Whether a word may decide among `n + 1` things. Of the remainders as many are taken as the
largest product of `n + 1` with a power of two that 32 bits hold, so every index has equally many
words. -/
def accepts (word : UInt32) (n : Nat) : Bool :=
  word.toNat * (n + 1) % wordCount ≤ (n + 1) <<< (31 - (n + 1).log2) - 1

/-- Draws words until one is accepted. If the given number of words is thrown away, the next one
is taken as it is. -/
def chooseWithin (n : Nat) : Nat → Words → Fin (n + 1) × Words
  | 0, s => (index s.next.1 n, s.next.2)
  | tries + 1, s =>
    if accepts s.next.1 n then (index s.next.1 n, s.next.2) else chooseWithin n tries s.next.2

/-- An index among `n + 1` things. Behind the given words the generator goes through all its states,
as many as there are words of 64 bits, and so gives the word zero at some point. This one is
accepted for every `n`, as its remainder is zero, and the bound on the tries is never met. -/
def choose (n : Nat) (s : Words) : Fin (n + 1) × Words :=
  chooseWithin n (s.given.length + 0x10000000000000000) s

end Words

instance : ChoiceSource Words := ⟨Words.choose⟩

/-- The choice of the thing at `index` among `others + 1`, fewer than there are words. -/
structure Choice where
  others : Nat
  index : Fin (others + 1)
  few : others + 1 < Words.wordCount

namespace ChoiceSource

variable {σ : Type} [ChoiceSource σ]

/-- Asked for these choices one after the other, the source makes them. -/
def Makes : List Choice → σ → Prop
  | [], _ => True
  | c :: row, s => (choose c.others s).1 = c.index ∧ Makes row (choose c.others s).2

/-- Whatever the choices of a row are, one of the sources makes them. -/
def ForcesAll {ι : Type} (sources : ι → σ) : Prop := ∀ row, ∃ i, Makes row (sources i)

end ChoiceSource

end ContextFree

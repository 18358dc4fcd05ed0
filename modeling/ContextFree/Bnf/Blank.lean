/-! The characters that separate the words of a grammar file: Unicode's White_Space. -/

namespace ContextFree

/-- First and last code points of the runs of characters that have the property White_Space. -/
def blankRanges : List (Nat × Nat) :=
  [(0x09, 0x0D), (0x20, 0x20), (0x85, 0x85), (0xA0, 0xA0), (0x1680, 0x1680), (0x2000, 0x200A),
    (0x2028, 0x2029), (0x202F, 0x202F), (0x205F, 0x205F), (0x3000, 0x3000)]

def isBlank (c : Char) : Bool :=
  blankRanges.any fun range => range.1 ≤ c.toNat && c.toNat ≤ range.2

/-- A character that ends a bare word: a blank or one with a meaning of its own. -/
def endsWord (c : Char) : Bool := isBlank c || c == '=' || c == '|' || c == '"'

end ContextFree

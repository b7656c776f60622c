/-!
# Classes of characters

The tests that grammars put to the character of a token.

- `CharClass`: a set of characters, a range, or the complement of a class;
- `CharClass.test`: whether a character is in a class.
-/

namespace Packrat

/-- A class of characters. -/
inductive CharClass where
  | const (b : Bool)
  | among (set : String)
  /-- The characters from `low` to `high`, both included. -/
  | range (low high : Char)
  | complement (c : CharClass)
  deriving DecidableEq, Repr

def CharClass.test : CharClass → Char → Bool
  | const b, _ => b
  | among set, c => set.toList.contains c
  | range low high, c => low ≤ c && c ≤ high
  | complement cls, c => !cls.test c

end Packrat

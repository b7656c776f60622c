import Packrat.Text.Quoted

/-!
# Locations

Where a cursor stands, for a reader: the line, counted from one, and the column,
counted from zero in tokens. Both depend only on the tokens already consumed.

- `Location.after`: the location after a list of tokens.
-/

namespace Packrat

/-- A line, counted from one, and a column, counted from zero. -/
structure Location where
  line : Nat
  column : Nat
  deriving DecidableEq, Repr

namespace Location

/-- The location after the consumed tokens: one line more than there are
newlines, and as many columns as there are tokens since the last newline. -/
def after {τ : Type} (isNewline : τ → Bool) (consumed : List τ) : Location where
  line := 1 + consumed.countP isNewline
  column := (consumed.reverse.takeWhile fun token => !isNewline token).length

def text (location : Location) : String :=
  "line " ++ toString location.line ++ ", column " ++ toString location.column

def describe (location : Location) : String :=
  Quoted.record "Location" [("line", toString location.line), ("column", toString location.column)]

end Location

end Packrat

import Packrat.Grammar.Character
import Packrat.Numeral.Text

/-!
# Grammars of numbers

- `integer`: an optional sign and digits, which must stand for a 64-bit integer;
- `number`: an optional sign and digits, optionally a point and digits, and
  optionally a power of ten. A point or a marker of the power must be followed
  by digits. The value is the nearest floating-point number.

Both report failures where the number starts.
-/

namespace Packrat.Grammar

def isMinus (v : Value) : Value :=
  .bool (v.token? == some '-')

/-- An optional sign, and whether it is a minus sign. -/
def sign : Grammar :=
  .option (.bool false) (.map isMinus (oneOf "+-"))

def digits : Grammar :=
  .many1 digit

/-- The digits that a list of tokens stands for. -/
def digitsOf : Value → List Nat
  | .list vs => vs.map fun v => (v.token?.map Operation.digitValue).getD 0
  | _ => []

/-- The 64-bit integer that a sign and digits stand for. -/
def toInteger? : Value → Option Value
  | .pair (.bool negative) ds => (Numeral.toInt64? negative (digitsOf ds)).map .int
  | _ => none

def integer : Grammar :=
  .convert "integer" .integerRange toInteger? (.lexeme "integer" (.both sign digits))

/-- The text of a list of tokens, which are all characters or all bytes. -/
def textOf : Value → Value
  | .list vs => .text (Token.text (vs.filterMap Value.char?) ++
      Token.text (vs.filterMap Value.byte?))
  | _ => .unit

def digitText : Grammar :=
  .map textOf digits

/-- A point and the text of digits, or a zero. -/
def fraction : Grammar :=
  .marked (.text "0") (char '.') digitText

/-- The marker of a power of ten with a signed number, or no digits. -/
def exponent : Grammar :=
  .marked (.pair (.bool false) (.list [])) (oneOf "eE") (.both sign digits)

/-- The number that the parts of a numeral stand for. The sign is applied last. -/
def toNumber : Value → Value
  | .pair (.pair (.pair (.bool negative) (.text whole)) (.text fraction))
      (.pair (.bool down) power) =>
    let x := Numeral.decimal whole fraction (Numeral.power down (digitsOf power))
    .float (if negative then x.negate else x)
  | _ => .unit

def number : Grammar :=
  .lexeme "number" (.map toNumber (.both (.both (.both sign digitText) fraction) exponent))

end Packrat.Grammar

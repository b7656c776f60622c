import Packrat.Numeral

/-!
# Numerals as texts

The text of a decimal with a fraction and a power of ten, and the reading of texts as
floating-point numbers: an optional sign, and then a numeral, or a word for infinity or
for no number. A numeral has a digit before or after its point, which may be missing, and
optionally a power of ten at its end.

- `Numeral.text`: the text of a decimal;
- `Binary64.ofText?`: the number that a text stands for;
- `Numeral.decimal`: the number that the text of a decimal stands for.
-/

namespace Packrat

namespace Numeral

/-- The text of a decimal with a fraction and a power of ten. -/
def text (whole fraction : String) (power : Int32) : String :=
  whole ++ "." ++ fraction ++ "e" ++ toString power.toInt

/-- Whether there is a minus sign, and what follows the sign, which may be missing. -/
def splitSign : List Char → Bool × List Char
  | '-' :: s => (true, s)
  | '+' :: s => (false, s)
  | s => (false, s)

/-- The digits at the front, and what follows them. -/
def splitDigits (s : List Char) : List Nat × List Char :=
  ((s.takeWhile Char.isDigit).map Operation.digitValue, s.dropWhile Char.isDigit)

/-- The digits after a point, and what follows them, where the point may be missing. -/
def splitFraction : List Char → List Nat × List Char
  | '.' :: s => splitDigits s
  | s => ([], s)

/-- The power of ten at the end of a numeral, or zero. -/
def ending? : List Char → Option Int
  | [] => some 0
  | marker :: s =>
    let (negative, s) := splitSign s
    let (digits, s) := splitDigits s
    if marker.toLower = 'e' ∧ digits ≠ [] ∧ s = [] then
      some (if negative then -(ofDigits digits : Int) else ofDigits digits)
    else none

/-- The numeral that some characters are, with the sign before them. -/
def ofChars? (negative : Bool) (s : List Char) : Option Numeral :=
  let (whole, s) := splitDigits s
  let (fraction, s) := splitFraction s
  if whole = [] ∧ fraction = [] then none
  else (ending? s).map fun exponent => { negative, whole, fraction, exponent }

end Numeral

/-- The floating-point number that a text stands for. -/
def Binary64.ofText? (s : String) : Option Binary64 :=
  let (negative, s) := Numeral.splitSign s.toList
  let word := String.ofList (s.map Char.toLower)
  if word = "inf" ∨ word = "infinity" then some (infinity negative)
  else if word = "nan" then some (nan negative)
  else (Numeral.ofChars? negative s).map Numeral.value

/-- The number that the text of a decimal stands for, and zero if it stands for none. -/
def Numeral.decimal (whole fraction : String) (power : Int32) : Binary64 :=
  (Binary64.ofText? (text whole fraction power)).getD (.zero false)

end Packrat

import Packrat.Value.Operation

/-!
# Numerals

What is read of a decimal numeral, and the number it stands for. The digits are
given as a list, the most significant one first.

- `Numeral.toInt64?`: the 64-bit integer that a sign and digits stand for;
- `Numeral.exponentOf`, `Numeral.power`: the exponent that digits stand for, which is
  limited;
- `Numeral.value`: the floating-point number nearest to a numeral.
-/

namespace Packrat

/-- A decimal numeral: a sign, the digits before and after the point, and the
power of ten. -/
structure Numeral where
  negative : Bool
  whole : List Nat
  fraction : List Nat
  exponent : Int
  deriving DecidableEq, Repr

namespace Numeral

/-- An integer, if it has 64 bits. -/
def fits? (n : Int) : Option Int :=
  if Int64.minValue.toInt ≤ n ∧ n ≤ Int64.maxValue.toInt then some n else none

/-- One more digit, added with the sign of the number, while the number has 64
bits. -/
def shift? (negative : Bool) (n : Int) (digit : Nat) : Option Int := do
  let tens ← fits? (n * 10)
  fits? (tens + if negative then -(digit : Int) else digit)

/-- The 64-bit integer that a sign and digits stand for. -/
def toInt64? (negative : Bool) (digits : List Nat) : Option Int64 :=
  (digits.foldlM (shift? negative) 0).map Int64.ofInt

def maxExponent : Nat := 0x7FFFFFFF

/-- One more digit of an exponent, which stays at its limit once it is reached. -/
def growExponent (n digit : Nat) : Nat :=
  min (min (n * 10) maxExponent + digit) maxExponent

/-- The magnitude of the exponent that digits stand for. -/
def exponentOf (digits : List Nat) : Nat :=
  digits.foldl growExponent 0

/-- The exponent that a sign and digits stand for. -/
def power (negative : Bool) (digits : List Nat) : Int32 :=
  (if negative then -1 else 1) * Int32.ofNat (exponentOf digits)

def ofDigits (digits : List Nat) : Nat :=
  digits.foldl (fun n digit => n * 10 + digit) 0

/-- The floating-point number nearest to a numeral. -/
def value (n : Numeral) : Binary64 :=
  .ofDecimal n.negative (ofDigits (n.whole ++ n.fraction)) (n.exponent - n.fraction.length)

end Numeral

end Packrat

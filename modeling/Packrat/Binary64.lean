/-!
# Binary floating point

The numbers of the 64-bit binary format, as bits, and the rounding of an exact
decimal to the nearest of them. All arithmetic is exact, on natural numbers.

- `roundQuotient`: the nearest natural number to a quotient, ties to even;
- `Binary64.zero`, `Binary64.infinity`, `Binary64.nan`, `Binary64.negate`: numbers with
  signs;
- `Binary64.ofRatio`: the nearest number of the format to a positive quotient;
- `Binary64.ofDecimal`: the nearest number of the format to `n * 10 ^ e`.
-/

namespace Packrat

/-- A number of the 64-bit binary format: a sign bit, eleven bits of exponent
and fifty-two bits of fraction. -/
structure Binary64 where
  bits : UInt64
  deriving DecidableEq, Repr

/-- The natural number nearest to `a / b`, and of two equally near the even one. -/
def roundQuotient (a b : Nat) : Nat :=
  let q := a / b
  let r := a % b
  if 2 * r < b then q
  else if b < 2 * r then q + 1
  else if q % 2 = 0 then q
  else q + 1

namespace Binary64

/-- A sign and the other bits, which infinity limits. Consecutive magnitudes
stand for consecutive numbers, so a carry out of the fraction goes into the
exponent as it should. -/
def ofMagnitude (negative : Bool) (magnitude : Nat) : Binary64 :=
  ⟨UInt64.ofNat ((if negative then 1 <<< 63 else 0) + min magnitude (2047 <<< 52))⟩

/-- Zero, with a sign. -/
def zero (negative : Bool) : Binary64 :=
  ofMagnitude negative 0

/-- Infinity, with a sign. -/
def infinity (negative : Bool) : Binary64 :=
  ofMagnitude negative (2047 <<< 52)

/-- No number, with a sign. -/
def nan (negative : Bool) : Binary64 :=
  ⟨UInt64.ofNat ((if negative then 1 <<< 63 else 0) + 4095 <<< 51)⟩

/-- The same number with the other sign. A carry out of the sign bit is lost. -/
def negate (x : Binary64) : Binary64 :=
  ⟨x.bits + UInt64.ofNat (1 <<< 63)⟩

/-- The numerator and the denominator of `a / b / 2 ^ q`. -/
def scale (a b : Nat) : Int → Nat × Nat
  | .ofNat q => (a, b <<< q)
  | .negSucc q => (a <<< (q + 1), b)

/-- The exponent `q` of the unit in which `a / b` is rounded: the least for
which `a / b < 2 ^ (53 + q)`, and at least `-1074`. -/
def unitExponent (a b : Nat) : Int :=
  let q := max ((a.log2 : Int) - b.log2 - 53) (-1074)
  let (n, d) := scale a b q
  if n < d <<< 53 then q else q + 1

/-- The number nearest to `± a / b`, for positive `a` and `b`. -/
def ofRatio (negative : Bool) (a b : Nat) : Binary64 :=
  let q := unitExponent a b
  let (n, d) := scale a b q
  ofMagnitude negative (((q + 1074).toNat <<< 52) + roundQuotient n d)

/-- The number nearest to `± n * 10 ^ e`. From `10 ^ 309` on it is infinity, and
a decimal below `2 ^ (-1075)`, which is so if `n < 2 ^ (k + 1)` and
`k + 1076 ≤ 3 * -e`, is rounded to zero; so no power is larger than the digits
call for. -/
def ofDecimal (negative : Bool) (n : Nat) (e : Int) : Binary64 :=
  if n = 0 then zero negative
  else if 309 ≤ e then infinity negative
  else if (n.log2 : Int) + 1076 ≤ 3 * -e then zero negative
  else match e with
    | .ofNat k => ofRatio negative (n * Nat.pow 10 k) 1
    | .negSucc k => ofRatio negative n (Nat.pow 10 (k + 1))

end Binary64

end Packrat

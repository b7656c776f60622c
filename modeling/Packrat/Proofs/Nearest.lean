import Mathlib.Algebra.Order.Field.Power
import Mathlib.Tactic.FieldSimp
import Mathlib.Tactic.Linarith
import Mathlib.Tactic.Positivity
import Mathlib.Tactic.Ring
import Packrat.Binary64

/-!
# The nearest number

The numbers of the format are a grid: the magnitudes, counted from zero, stand for larger and
larger numbers, also where the exponent changes. So the number nearest to a quotient is found
between two magnitudes that follow each other, where it is enough to round the significand
to a whole number: a significand that gets too large is carried into the exponent.

* `Binary64.grid`: the number that a magnitude stands for, with `grid_eq` and
  `grid_strictMono`;
* `Binary64.Nearest`: the magnitude nearest to a number, with `Nearest.unique`;
* `Binary64.nearest_of_between`: the nearer one of two neighbours is nearest;
* `Binary64.exists_nearest_of_ofRatio`: a quotient is rounded to the magnitude nearest to it;
* `Nearest.top_le_iff`, `Nearest.eq_zero_iff`: where infinity and zero are nearest.
-/

namespace Packrat

namespace Binary64

/-! ## Magnitudes -/

/-- The significand of a magnitude: its fraction, with a leading bit if it is normal. -/
def significand (m : ℕ) : ℕ :=
  if m < 2 ^ 52 then m else 2 ^ 52 + m % 2 ^ 52

/-- The exponent of the last place of a magnitude. -/
def lastPlace (m : ℕ) : ℤ :=
  max (m / 2 ^ 52 : ℕ) 1 - 1075

/-- The number that a magnitude stands for. Those from infinity on are given the numbers
that they would stand for in a format with more exponents. -/
def grid (m : ℕ) : ℚ :=
  significand m * 2 ^ lastPlace m

/-- The number of a magnitude that is put together from an exponent and a significand. A
significand that is too large by one is carried over. -/
theorem grid_eq {k r : ℕ} (hr : r ≤ 2 ^ 53) (hk : k = 0 ∨ 2 ^ 52 ≤ r) :
    grid (k * 2 ^ 52 + r) = r * 2 ^ ((k : ℤ) - 1074) := by
  have hCases : r < 2 ^ 52 ∨ 2 ^ 52 ≤ r ∧ r < 2 ^ 53 ∨ r = 2 ^ 53 := by omega
  rcases hCases with hLow | ⟨hLe, hLt⟩ | rfl
  · -- A magnitude below the normal ones.
    obtain rfl : k = 0 := by omega
    have hSignificand : significand (0 * 2 ^ 52 + r) = r := by
      unfold significand
      rw [if_pos (by omega)]
      omega
    have hPlace : lastPlace (0 * 2 ^ 52 + r) = ((0 : ℕ) : ℤ) - 1074 := by
      unfold lastPlace
      omega
    rw [grid, hSignificand, hPlace]
  · have hSignificand : significand (k * 2 ^ 52 + r) = r := by
      unfold significand
      rw [if_neg (by omega)]
      omega
    have hPlace : lastPlace (k * 2 ^ 52 + r) = (k : ℤ) - 1074 := by
      unfold lastPlace
      omega
    rw [grid, hSignificand, hPlace]
  · -- The carry doubles the unit and halves the significand.
    have hSignificand : significand (k * 2 ^ 52 + 2 ^ 53) = 2 ^ 52 := by
      unfold significand
      rw [if_neg (by omega)]
      omega
    have hPlace : lastPlace (k * 2 ^ 52 + 2 ^ 53) = (k : ℤ) - 1074 + 1 := by
      unfold lastPlace
      omega
    rw [grid, hSignificand, hPlace, zpow_add_one₀ two_ne_zero]
    push_cast
    ring

/-- Every magnitude is put together so. -/
theorem exists_parts (m : ℕ) : ∃ k r, m = k * 2 ^ 52 + r ∧ r < 2 ^ 53 ∧ (k = 0 ∨ 2 ^ 52 ≤ r) := by
  by_cases hLow : m < 2 ^ 53
  · exact ⟨0, m, by omega, hLow, .inl rfl⟩
  · exact ⟨m / 2 ^ 52 - 1, 2 ^ 52 + m % 2 ^ 52, by omega, by omega, .inr (by omega)⟩

/-- Consecutive magnitudes stand for larger and larger numbers. -/
theorem grid_strictMono : StrictMono grid := by
  apply strictMono_nat_of_lt_succ
  intro m
  obtain ⟨k, r, rfl, hLt, hk⟩ := exists_parts m
  have hPos : (0 : ℚ) < 2 ^ ((k : ℤ) - 1074) := by positivity
  have hNext : grid (k * 2 ^ 52 + (r + 1)) = _ := grid_eq hLt (by omega)
  rw [Nat.add_assoc, hNext, grid_eq hLt.le hk]
  have hLess : (r : ℚ) < (r + 1 : ℕ) := by exact_mod_cast r.lt_succ_self
  exact mul_lt_mul_of_pos_right hLess hPos

theorem grid_zero : grid 0 = 0 := by
  simp [grid, significand]

theorem grid_nonneg (m : ℕ) : 0 ≤ grid m := by
  rw [← grid_zero]
  exact grid_strictMono.monotone (Nat.zero_le m)

/-- The least positive number. -/
theorem grid_one : grid 1 = 2 ^ (-1074 : ℤ) := by
  have hOne : grid (0 * 2 ^ 52 + 1) = _ := grid_eq (by omega) (.inl rfl)
  simpa using hOne

/-- It is twice the middle between zero and itself. -/
theorem grid_one_eq : grid 1 = 2 ^ (-1075 : ℤ) + 2 ^ (-1075 : ℤ) := by
  rw [grid_one, ← two_mul, ← zpow_one_add₀ two_ne_zero]
  norm_num

/-- The magnitude of infinity. -/
def top : ℕ :=
  2047 * 2 ^ 52

/-- The number where a further exponent would begin. -/
theorem grid_top : grid top = 2 ^ 1024 := by
  have hTop : grid (2045 * 2 ^ 52 + 2 ^ 53) = ((2 ^ 53 : ℕ) : ℚ) * 2 ^ (((2045 : ℕ) : ℤ) - 1074) :=
    grid_eq le_rfl (.inr (by omega))
  have hPlace : ((2045 : ℕ) : ℤ) - 1074 = (971 : ℕ) := by omega
  rw [hPlace, zpow_natCast, Nat.cast_pow, Nat.cast_ofNat, ← pow_add] at hTop
  exact hTop

/-- The largest number. -/
theorem grid_top_pred : grid (top - 1) = 2 ^ 1024 - 2 ^ 971 := by
  have hLast : grid (2045 * 2 ^ 52 + (2 ^ 53 - 1)) =
      ((2 ^ 53 - 1 : ℕ) : ℚ) * 2 ^ (((2045 : ℕ) : ℤ) - 1074) :=
    grid_eq (by omega) (.inr (by omega))
  have hPlace : ((2045 : ℕ) : ℤ) - 1074 = (971 : ℕ) := by omega
  have hSignificand : ((2 ^ 53 - 1 : ℕ) : ℚ) = 2 ^ 53 - 1 := by norm_num
  rw [hPlace, zpow_natCast, hSignificand, sub_mul, one_mul, ← pow_add] at hLast
  exact hLast

/-! ## The nearest magnitude -/

/-- A magnitude that no other one is nearer than, and an even one if another is as near. -/
structure Nearest (m : ℕ) (q : ℚ) : Prop where
  le : ∀ j, |grid m - q| ≤ |grid j - q|
  even : ∀ j, j ≠ m → |grid j - q| = |grid m - q| → Even m

/-- A number from a magnitude on is as far from a lower one as the two are apart, and more. -/
theorem sub_le_abs_of_le {lo j : ℕ} {q : ℚ} (hLo : grid lo ≤ q) (hLe : j ≤ lo) :
    q - grid lo ≤ |grid j - q| ∧ (|grid j - q| = q - grid lo → j = lo) := by
  have hGrid : grid j ≤ grid lo := grid_strictMono.monotone hLe
  rw [abs_of_nonpos (by linarith)]
  refine ⟨by linarith, fun hEq => grid_strictMono.injective ?_⟩
  linarith

theorem sub_le_abs_of_ge {hi j : ℕ} {q : ℚ} (hHi : q ≤ grid hi) (hLe : hi ≤ j) :
    grid hi - q ≤ |grid j - q| ∧ (|grid j - q| = grid hi - q → j = hi) := by
  have hGrid : grid hi ≤ grid j := grid_strictMono.monotone hLe
  rw [abs_of_nonneg (by linarith)]
  refine ⟨by linarith, fun hEq => grid_strictMono.injective ?_⟩
  linarith

/-- Between two consecutive magnitudes the nearer one is nearest, and the even one if they
are equally near. -/
theorem nearest_of_between {lo m : ℕ} {q : ℚ} (hLo : grid lo ≤ q) (hHi : q ≤ grid (lo + 1))
    (hm : m = lo ∧ q - grid lo ≤ grid (lo + 1) - q ∨
      m = lo + 1 ∧ grid (lo + 1) - q ≤ q - grid lo)
    (hTie : q - grid lo = grid (lo + 1) - q → Even m) : Nearest m q := by
  -- Every other magnitude lies on one side, and is not nearer than the neighbour there.
  have hSides : ∀ j, (q - grid lo ≤ |grid j - q| ∧ (|grid j - q| = q - grid lo → j = lo)) ∨
      (grid (lo + 1) - q ≤ |grid j - q| ∧ (|grid j - q| = grid (lo + 1) - q → j = lo + 1)) := by
    intro j
    rcases Nat.lt_or_ge lo j with hLt | hLe
    · exact .inr (sub_le_abs_of_ge hHi hLt)
    · exact .inl (sub_le_abs_of_le hLo hLe)
  have hDown : |grid lo - q| = q - grid lo := by
    rw [abs_of_nonpos (by linarith)]
    ring
  have hUp : |grid (lo + 1) - q| = grid (lo + 1) - q := abs_of_nonneg (by linarith)
  rcases hm with ⟨rfl, hNear⟩ | ⟨rfl, hNear⟩
  · refine ⟨fun j => ?_, fun j hNe hEq => hTie ?_⟩
    · rcases hSides j with ⟨hFar, -⟩ | ⟨hFar, -⟩ <;> linarith
    · rcases hSides j with ⟨-, hSame⟩ | ⟨hFar, -⟩
      · exact absurd (hSame (hEq.trans hDown)) hNe
      · linarith
  · refine ⟨fun j => ?_, fun j hNe hEq => hTie ?_⟩
    · rcases hSides j with ⟨hFar, -⟩ | ⟨hFar, -⟩ <;> linarith
    · rcases hSides j with ⟨hFar, -⟩ | ⟨-, hSame⟩
      · linarith
      · exact absurd (hSame (hEq.trans hUp)) hNe

/-- Half of the least positive number and less is nearest to zero. -/
theorem nearest_zero {q : ℚ} (hNonneg : 0 ≤ q) (hLe : q ≤ 2 ^ (-1075 : ℤ)) : Nearest 0 q := by
  have hLo : grid 0 ≤ q := by rwa [grid_zero]
  have hHi : q ≤ grid (0 + 1) := by
    rw [Nat.zero_add, grid_one_eq]
    linarith
  refine nearest_of_between hLo hHi (.inl ⟨rfl, ?_⟩) fun _ => Even.zero
  rw [Nat.zero_add, grid_one_eq, grid_zero]
  linarith

/-- At most one magnitude is nearest: of two that are equally near and both even there is
one between them, which is nearer. -/
theorem Nearest.eq_of_le {m n : ℕ} {q : ℚ} (hm : Nearest m q) (hn : Nearest n q) (hLe : m ≤ n) :
    m = n := by
  by_contra hNe
  have hEq : |grid n - q| = |grid m - q| := le_antisymm (hn.le m) (hm.le n)
  have hEvenLow := Nat.even_iff.mp (hm.even n (Ne.symm hNe) hEq)
  have hEvenHigh := Nat.even_iff.mp (hn.even m hNe hEq.symm)
  have hLow : grid m < grid (m + 1) := grid_strictMono (by omega)
  have hHigh : grid (m + 1) < grid n := grid_strictMono (by omega)
  have hAbove : grid m < q := by
    by_contra hGe
    rw [abs_of_nonneg (by linarith), abs_of_nonneg (by linarith)] at hEq
    linarith
  have hBelow : q < grid n := by
    by_contra hGe
    rw [abs_of_nonpos (by linarith), abs_of_nonpos (by linarith)] at hEq
    linarith
  have hBetween := hm.le (m + 1)
  rw [abs_of_pos (by linarith), abs_of_neg (by linarith)] at hEq
  rw [abs_of_neg (by linarith)] at hBetween
  have hNearer : |grid (m + 1) - q| < -(grid m - q) :=
    abs_lt.mpr ⟨by linarith, by linarith⟩
  linarith

theorem Nearest.unique {m n : ℕ} {q : ℚ} (hm : Nearest m q) (hn : Nearest n q) : m = n := by
  rcases Nat.le_total m n with hLe | hLe
  · exact hm.eq_of_le hn hLe
  · exact (hn.eq_of_le hm hLe).symm

/-! ## Both ends -/

/-- Below the middle between the largest number and infinity, the largest number is nearer
than infinity and all that is beyond it. -/
theorem abs_top_pred_sub_lt {j : ℕ} {q : ℚ} (hLt : q < 2 ^ 1024 - 2 ^ 970) (hLe : top ≤ j) :
    |grid (top - 1) - q| < |grid j - q| := by
  have hGrid : grid top ≤ grid j := grid_strictMono.monotone hLe
  have hDouble : (2 : ℚ) ^ 971 = 2 * 2 ^ 970 := pow_succ' 2 970
  have hPos : (0 : ℚ) < 2 ^ 970 := by positivity
  rw [grid_top] at hGrid
  rw [grid_top_pred]
  generalize (2 : ℚ) ^ 970 = u at *
  generalize (2 : ℚ) ^ 971 = v at *
  generalize (2 : ℚ) ^ 1024 = t at *
  have hAbs : |grid j - q| = grid j - q := abs_of_nonneg (by linarith)
  rw [hAbs]
  exact abs_lt.mpr ⟨by linarith, by linarith⟩

/-- The magnitude of infinity is nearest, or there is one beyond it that is, exactly from the
middle on. The largest number is odd, so a tie goes to infinity. -/
theorem Nearest.top_le_iff {m : ℕ} {q : ℚ} (h : Nearest m q) :
    top ≤ m ↔ 2 ^ 1024 - 2 ^ 970 ≤ q := by
  constructor
  · intro hLe
    by_contra hLt
    exact absurd (h.le (top - 1)) (not_le.mpr (abs_top_pred_sub_lt (not_le.mp hLt) hLe))
  · intro hLe
    by_contra hLt
    have hGrid : grid m ≤ grid (top - 1) := grid_strictMono.monotone (by omega)
    have hDouble : (2 : ℚ) ^ 971 = 2 * 2 ^ 970 := pow_succ' 2 970
    have hPos : (0 : ℚ) < 2 ^ 970 := by positivity
    have hNearTop := h.le top
    have hTie := h.even top (by omega)
    have hPred := grid_top_pred
    rw [grid_top] at hNearTop hTie
    generalize (2 : ℚ) ^ 970 = u at *
    generalize (2 : ℚ) ^ 971 = v at *
    generalize (2 : ℚ) ^ 1024 = t at *
    have hAbs : |grid m - q| = q - grid m := by
      rw [abs_of_nonpos (by linarith)]
      ring
    rw [hAbs] at hNearTop hTie
    rcases abs_cases (t - q) with ⟨hTopAbs, -⟩ | ⟨hTopAbs, hNegative⟩
    · -- Both are equally near, and the lower one is the largest number.
      have hEq : grid m = grid (top - 1) := by linarith
      obtain rfl : m = top - 1 := grid_strictMono.injective hEq
      exact absurd (hTie (by linarith)) (by decide)
    · linarith

/-- Zero is nearest up to the middle between it and the least positive number. -/
theorem Nearest.eq_zero_iff {m : ℕ} {q : ℚ} (h : Nearest m q) (hNonneg : 0 ≤ q) :
    m = 0 ↔ q ≤ 2 ^ (-1075 : ℤ) := by
  constructor
  · rintro rfl
    have hOne := h.le 1
    have hPos : grid 0 < grid 1 := grid_strictMono Nat.zero_lt_one
    rw [grid_zero, zero_sub, abs_neg, abs_of_nonneg hNonneg] at hOne
    rw [grid_zero] at hPos
    rw [grid_one_eq] at hOne hPos
    rcases abs_cases ((2 : ℚ) ^ (-1075 : ℤ) + 2 ^ (-1075 : ℤ) - q) with ⟨hAbs, -⟩ | ⟨hAbs, -⟩ <;>
      linarith
  · intro hLe
    exact h.unique (nearest_zero hNonneg hLe)

/-! ## Rounded quotients -/

/-- The numerator and the denominator of a quotient by a power of two. -/
theorem scale_eq (a b : ℕ) (q : ℤ) (hb : 0 < b) :
    0 < (scale a b q).2 ∧ ((scale a b q).1 : ℚ) / (scale a b q).2 = a / b / 2 ^ q := by
  have hb' : (b : ℚ) ≠ 0 := by exact_mod_cast hb.ne'
  rcases q with q | q
  · refine ⟨by simp [scale, Nat.shiftLeft_eq, hb], ?_⟩
    simp only [scale, Nat.shiftLeft_eq, Int.ofNat_eq_natCast, zpow_natCast]
    push_cast
    field_simp
  · refine ⟨hb, ?_⟩
    simp only [scale, Nat.shiftLeft_eq, zpow_negSucc]
    push_cast
    field_simp

theorem roundQuotient_cases (a b : ℕ) :
    (roundQuotient a b = a / b ∧ 2 * (a % b) ≤ b ∨
      roundQuotient a b = a / b + 1 ∧ b ≤ 2 * (a % b)) ∧
    (2 * (a % b) = b → Even (roundQuotient a b)) := by
  unfold roundQuotient
  simp only
  split_ifs with hLow hHigh hEven
  · exact ⟨.inl ⟨rfl, by omega⟩, fun h => by omega⟩
  · exact ⟨.inr ⟨rfl, by omega⟩, fun h => by omega⟩
  · exact ⟨.inl ⟨rfl, by omega⟩, fun _ => Nat.even_iff.mpr hEven⟩
  · exact ⟨.inr ⟨rfl, by omega⟩, fun _ => Nat.even_iff.mpr (by omega)⟩

/-- A significand that is rounded to a whole number makes the nearest magnitude. -/
theorem nearest_roundQuotient {k n d : ℕ} (hd : 0 < d) (hLt : n / d < 2 ^ 53)
    (hk : k = 0 ∨ 2 ^ 52 ≤ n / d) :
    Nearest (k * 2 ^ 52 + roundQuotient n d) ((n : ℚ) / d * 2 ^ ((k : ℤ) - 1074)) := by
  have hUnit : (0 : ℚ) < 2 ^ ((k : ℤ) - 1074) := by positivity
  have hd' : (0 : ℚ) < d := by exact_mod_cast hd
  have hLo : grid (k * 2 ^ 52 + n / d) = _ := grid_eq hLt.le hk
  have hHi : grid (k * 2 ^ 52 + n / d + 1) = ((n / d + 1 : ℕ) : ℚ) * 2 ^ ((k : ℤ) - 1074) := by
    rw [Nat.add_assoc]
    exact grid_eq hLt (by omega)
  generalize (2 : ℚ) ^ ((k : ℤ) - 1074) = u at hUnit hLo hHi ⊢
  have hPart : 0 < u / d := div_pos hUnit hd'
  have hQuotient : (n : ℚ) / d = (n / d : ℕ) + (n % d : ℕ) / d := by
    rw [div_eq_iff hd'.ne', add_mul, div_mul_cancel₀ _ hd'.ne']
    exact_mod_cast (Nat.div_add_mod' n d).symm
  have hDown : (n : ℚ) / d * u - grid (k * 2 ^ 52 + n / d) = (n % d : ℕ) * (u / d) := by
    rw [hLo, hQuotient]
    ring
  have hUp : grid (k * 2 ^ 52 + n / d + 1) - (n : ℚ) / d * u = (d - (n % d : ℕ)) * (u / d) := by
    rw [hHi, hQuotient]
    push_cast
    field_simp
    ring
  have hMod : ((n % d : ℕ) : ℚ) ≤ d := by exact_mod_cast (Nat.mod_lt n hd).le
  obtain ⟨hRound, hTie⟩ := roundQuotient_cases n d
  have hAbove : grid (k * 2 ^ 52 + n / d) ≤ (n : ℚ) / d * u := by
    rw [← sub_nonneg, hDown]
    positivity
  have hBelow : (n : ℚ) / d * u ≤ grid (k * 2 ^ 52 + n / d + 1) := by
    rw [← sub_nonneg, hUp]
    exact mul_nonneg (sub_nonneg.mpr hMod) hPart.le
  refine nearest_of_between hAbove hBelow ?_ fun hEq => ?_
  · rw [hDown, hUp, mul_le_mul_iff_left₀ hPart, mul_le_mul_iff_left₀ hPart]
    rcases hRound with ⟨hEq, hLe⟩ | ⟨hEq, hLe⟩
    · have hHalf : (2 : ℚ) * (n % d : ℕ) ≤ d := by exact_mod_cast hLe
      exact .inl ⟨by rw [hEq], by linarith⟩
    · have hHalf : (d : ℚ) ≤ 2 * (n % d : ℕ) := by exact_mod_cast hLe
      exact .inr ⟨by rw [hEq, Nat.add_assoc], by linarith⟩
  · rw [hDown, hUp] at hEq
    have hHalf : (2 : ℚ) * (n % d : ℕ) = d := by
      linarith [mul_right_cancel₀ hPart.ne' hEq]
    have hEven := hTie (by exact_mod_cast hHalf)
    exact (Even.mul_left (by decide) k).add hEven

theorem log2_bounds {n : ℕ} (hn : 0 < n) :
    (2 : ℚ) ^ (n.log2 : ℤ) ≤ n ∧ (n : ℚ) < 2 ^ ((n.log2 : ℤ) + 1) := by
  have hLe : 2 ^ n.log2 ≤ n := Nat.log2_self_le hn.ne'
  have hLt : n < 2 ^ (n.log2 + 1) := Nat.lt_log2_self
  constructor
  · rw [zpow_natCast]
    exact_mod_cast hLe
  · rw [← Nat.cast_succ, zpow_natCast]
    exact_mod_cast hLt

/-- The unit in which a quotient is rounded is that of the least magnitudes, or else the
quotient has as many digits in it as a significand. -/
theorem unitExponent_spec {a b : ℕ} (ha : 0 < a) (hb : 0 < b) : -1074 ≤ unitExponent a b ∧
    (a : ℚ) / b < 2 ^ (unitExponent a b + 53) ∧
      (unitExponent a b = -1074 ∨ (2 : ℚ) ^ (unitExponent a b + 52) ≤ a / b) := by
  have ha' : (0 : ℚ) < a := by exact_mod_cast ha
  have hb' : (0 : ℚ) < b := by exact_mod_cast hb
  obtain ⟨haLe, haLt⟩ := log2_bounds ha
  obtain ⟨hbLe, hbLt⟩ := log2_bounds hb
  have hLow : (2 : ℚ) ^ ((a.log2 : ℤ) - b.log2 - 1) ≤ a / b := by
    rw [sub_sub, zpow_sub₀ two_ne_zero]
    exact div_le_div₀ ha'.le haLe hb' hbLt.le
  have hHigh : (a : ℚ) / b < 2 ^ ((a.log2 : ℤ) - b.log2 + 1) := by
    rw [sub_add_eq_add_sub, zpow_sub₀ two_ne_zero]
    exact div_lt_div₀ haLt hbLe (by positivity) (by positivity)
  obtain ⟨q, hq⟩ : ∃ q, q = max ((a.log2 : ℤ) - b.log2 - 53) (-1074) := ⟨_, rfl⟩
  have hIf : unitExponent a b = if (a : ℚ) / b < 2 ^ (q + 53) then q else q + 1 := by
    obtain ⟨hd, hScale⟩ := scale_eq a b q hb
    have hd' : (0 : ℚ) < (scale a b q).2 := by exact_mod_cast hd
    unfold unitExponent
    simp only [← hq]
    refine if_congr ?_ rfl rfl
    rw [zpow_add₀ two_ne_zero, ← div_lt_iff₀' (by positivity), ← hScale, div_lt_iff₀' hd',
      Nat.shiftLeft_eq]
    norm_cast
  rw [hIf]
  split_ifs with hLt
  · refine ⟨by omega, hLt, ?_⟩
    by_cases hLeast : q = -1074
    · exact .inl hLeast
    · refine .inr (le_trans ?_ hLow)
      exact zpow_le_zpow_right₀ one_le_two (by omega)
  · refine ⟨by omega, lt_of_lt_of_le hHigh ?_, .inr ?_⟩
    · exact zpow_le_zpow_right₀ one_le_two (by omega)
    · rw [add_assoc]
      exact not_lt.mp hLt

/-- A positive quotient is rounded to the magnitude that is nearest to it. -/
theorem exists_nearest_of_ofRatio (negative : Bool) {a b : ℕ} (ha : 0 < a) (hb : 0 < b) :
    ∃ m, ofRatio negative a b = ofMagnitude negative m ∧ Nearest m (a / b) := by
  obtain ⟨hLeast, hLt, hUnit⟩ := unitExponent_spec ha hb
  unfold ofRatio
  generalize unitExponent a b = q at hLeast hLt hUnit
  obtain ⟨hd, hScale⟩ := scale_eq a b q hb
  refine ⟨(q + 1074).toNat * 2 ^ 52 + roundQuotient (scale a b q).1 (scale a b q).2, ?_, ?_⟩
  · rw [← Nat.shiftLeft_eq]
  generalize (scale a b q).1 = n at hScale
  generalize (scale a b q).2 = d at hd hScale
  have hd' : (0 : ℚ) < d := by exact_mod_cast hd
  have hPow : (0 : ℚ) < 2 ^ q := by positivity
  have hPlace : (((q + 1074).toNat : ℕ) : ℤ) - 1074 = q := by omega
  have hDigits : n / d < 2 ^ 53 := by
    rw [Nat.div_lt_iff_lt_mul hd]
    rw [add_comm, zpow_add₀ two_ne_zero, ← div_lt_iff₀ hPow, ← hScale, div_lt_iff₀ hd'] at hLt
    exact_mod_cast hLt
  have hNormal : (q + 1074).toNat = 0 ∨ 2 ^ 52 ≤ n / d := by
    refine hUnit.imp (fun h => by omega) fun hLe => ?_
    rw [Nat.le_div_iff_mul_le hd]
    rw [add_comm, zpow_add₀ two_ne_zero, ← le_div_iff₀ hPow, ← hScale, le_div_iff₀ hd'] at hLe
    exact_mod_cast hLe
  have hNearest := nearest_roundQuotient hd hDigits hNormal
  rwa [hPlace, hScale, div_mul_cancel₀ _ hPow.ne'] at hNearest

end Binary64

end Packrat

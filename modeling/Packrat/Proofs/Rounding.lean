import Packrat.Proofs.Nearest

/-!
# Rounding

A decimal is rounded once, to the nearest number of the format, ties to even, whatever its
power of ten is. The short cuts for large and small powers do not show: they are taken only
where the result is infinity or zero anyway.

* `Binary64.magnitude`, `Binary64.isNegative`, `Binary64.value`: the parts of a word, and
  the number that it stands for;
* `Binary64.RoundsTo`: what it is to be rounded, with `RoundsTo.unique`;
* `Binary64.Nearest.roundsTo`, `Binary64.RoundsTo.nearest_magnitude`: below infinity, it is
  the nearest magnitude with the sign;
* `Binary64.ofDecimal_roundsTo`: every decimal is rounded so;
* `Binary64.RoundsTo.negate`: the sign can be applied last.
-/

namespace Packrat

namespace Binary64

/-! ## Words -/

/-- All bits but the sign bit. -/
def magnitude (x : Binary64) : ℕ :=
  x.bits.toNat % 2 ^ 63

def isNegative (x : Binary64) : Bool :=
  2 ^ 63 ≤ x.bits.toNat

def IsFinite (x : Binary64) : Prop :=
  x.magnitude < top

def IsInfinite (x : Binary64) : Prop :=
  x.magnitude = top

def IsNaN (x : Binary64) : Prop :=
  top < x.magnitude

/-- A number with a sign. -/
def signed (negative : Bool) (q : ℚ) : ℚ :=
  if negative then -q else q

/-- The number that a word stands for, if it is finite. -/
def value (x : Binary64) : ℚ :=
  signed x.isNegative (grid x.magnitude)

theorem eq_of_parts {x y : Binary64} (hSign : x.isNegative = y.isNegative)
    (hMagnitude : x.magnitude = y.magnitude) : x = y := by
  obtain ⟨m⟩ := x
  obtain ⟨n⟩ := y
  have hm := m.toNat_lt
  have hn := n.toNat_lt
  simp only [isNegative, magnitude, decide_eq_decide] at hSign hMagnitude
  rw [Binary64.mk.injEq]
  apply UInt64.toNat_inj.mp
  omega

theorem parts_ofMagnitude (negative : Bool) (m : ℕ) :
    (ofMagnitude negative m).isNegative = negative ∧
      (ofMagnitude negative m).magnitude = min m top := by
  unfold ofMagnitude isNegative magnitude top
  cases negative
  · simp only [UInt64.toNat_ofNat', Nat.shiftLeft_eq, decide_eq_false_iff_not,
      Bool.false_eq_true, if_false]
    omega
  · simp only [UInt64.toNat_ofNat', Nat.shiftLeft_eq, decide_eq_true_iff, if_true]
    omega

theorem parts_negate (x : Binary64) :
    x.negate.isNegative = !x.isNegative ∧ x.negate.magnitude = x.magnitude := by
  have hLt := x.bits.toNat_lt
  unfold negate isNegative magnitude
  simp only [UInt64.toNat_add, UInt64.toNat_ofNat', Nat.shiftLeft_eq]
  constructor
  · rw [← decide_not, decide_eq_decide]
    omega
  · omega

theorem abs_signed_sub (negative : Bool) (p q : ℚ) :
    |signed negative p - signed negative q| = |p - q| := by
  cases negative
  · rfl
  · exact (congrArg abs (neg_sub_neg p q)).trans (abs_sub_comm q p)

/-- Numbers of different signs are as far from each other as from zero together. -/
theorem abs_signed_sub_of_ne {other negative : Bool} (hNe : other ≠ negative) {p q : ℚ}
    (hp : 0 ≤ p) (hq : 0 ≤ q) : |signed other p - signed negative q| = p + q := by
  obtain rfl : other = !negative := Bool.eq_not_of_ne hNe
  cases negative
  · have hNegative : -p - q ≤ 0 := by linarith
    exact (abs_of_nonpos hNegative).trans (by ring)
  · have hPositive : 0 ≤ p - -q := by linarith
    exact (abs_of_nonneg hPositive).trans (sub_neg_eq_add p q)

/-- A number of the other sign is not nearer. -/
theorem abs_sub_le_abs_signed_sub (other negative : Bool) {p q : ℚ} (hp : 0 ≤ p) (hq : 0 ≤ q) :
    |p - q| ≤ |signed other p - signed negative q| := by
  by_cases hSame : other = negative
  · rw [hSame, abs_signed_sub]
  · rw [abs_signed_sub_of_ne hSame hp hq]
    exact abs_le.mpr ⟨by linarith, by linarith⟩

/-! ## Rounding -/

/-- What it is to be rounded from a number, given by its sign and its absolute value, to the
nearest number of the format, and of two equally near to the one with an even significand. -/
structure RoundsTo (negative : Bool) (q : ℚ) (x : Binary64) : Prop where
  sign : x.isNegative = negative
  not_nan : ¬x.IsNaN
  /-- From the middle between the largest number and the next power of two on, the result is
  infinity. -/
  infinite_iff : x.IsInfinite ↔ 2 ^ 1024 - 2 ^ 970 ≤ q
  nearest : x.IsFinite → ∀ y : Binary64, y.IsFinite →
    |x.value - signed negative q| ≤ |y.value - signed negative q|
  even : x.IsFinite → ∀ y : Binary64, y.IsFinite → y.value ≠ x.value →
    |y.value - signed negative q| = |x.value - signed negative q| → Even (significand x.magnitude)
  /-- Up to the middle between zero and the least positive number, the result is zero. -/
  zero_iff : x.magnitude = 0 ↔ q ≤ 2 ^ (-1075 : ℤ)

variable {negative : Bool} {q : ℚ} {x y : Binary64} {m : ℕ}

theorem even_significand (m : ℕ) : Even (significand m) ↔ Even m := by
  simp only [Nat.even_iff, significand]
  split_ifs <;> omega

/-- The nearest magnitude, with the sign, is what a number is rounded to. -/
theorem Nearest.roundsTo (h : Nearest m q) (hNonneg : 0 ≤ q) (negative : Bool) :
    RoundsTo negative q (ofMagnitude negative m) := by
  obtain ⟨hSign, hMagnitude⟩ := parts_ofMagnitude negative m
  have hFinite : (ofMagnitude negative m).IsFinite → (ofMagnitude negative m).magnitude = m ∧
      |(ofMagnitude negative m).value - signed negative q| = |grid m - q| := by
    intro hFinite
    unfold IsFinite at hFinite
    have hSame : (ofMagnitude negative m).magnitude = m := by omega
    rw [value, hSign, hSame, abs_signed_sub]
    exact ⟨rfl, rfl⟩
  refine ⟨hSign, ?_, ?_, ?_, ?_, ?_⟩
  · unfold IsNaN
    omega
  · rw [← h.top_le_iff]
    unfold IsInfinite
    omega
  · intro hx y _
    rw [(hFinite hx).2]
    exact (h.le _).trans (abs_sub_le_abs_signed_sub _ _ (grid_nonneg _) hNonneg)
  · intro hx y _ hNe hEq
    obtain ⟨hSame, hDistance⟩ := hFinite hx
    rw [hDistance] at hEq
    rw [even_significand, hSame]
    have hBetween := abs_sub_le_abs_signed_sub y.isNegative negative (grid_nonneg y.magnitude)
      hNonneg
    have hTie : |grid y.magnitude - q| = |grid m - q| :=
      le_antisymm (hBetween.trans hEq.le) (h.le _)
    refine h.even y.magnitude (fun hMagnitudes => hNe ?_) hTie
    -- Two numbers that differ in their signs only are equally near to zero at most.
    by_cases hSigns : y.isNegative = negative
    · rw [value, value, hMagnitudes, hSame, hSigns, hSign]
    · rw [value, hMagnitudes, abs_signed_sub_of_ne hSigns (grid_nonneg m) hNonneg] at hEq
      have hZero : grid m = 0 := by
        have hNear := h.le 0
        rw [grid_zero, zero_sub, abs_neg, abs_of_nonneg hNonneg] at hNear
        linarith [grid_nonneg m]
      rw [value, value, hMagnitudes, hSame, hZero]
      cases y.isNegative <;> cases (ofMagnitude negative m).isNegative <;> rfl
  · rw [← h.eq_zero_iff hNonneg]
    have hTop : 0 < top := by decide
    omega

/-- The middle next to zero is below the one next to infinity. -/
theorem middle_lt_middle : (2 : ℚ) ^ (-1075 : ℤ) < 2 ^ 1024 - 2 ^ 970 := by
  have hPos : (0 : ℚ) < 2 ^ (-1075 : ℤ) := by positivity
  have hGrid : grid 1 ≤ grid (top - 1) := grid_strictMono.monotone (by decide)
  have hLess : (2 : ℚ) ^ 970 < 2 ^ 971 := pow_lt_pow_right₀ one_lt_two (Nat.lt_succ_self _)
  rw [grid_one_eq, grid_top_pred] at hGrid
  generalize (2 : ℚ) ^ (-1075 : ℤ) = u at *
  generalize (2 : ℚ) ^ 970 = v at *
  generalize (2 : ℚ) ^ 971 = w at *
  generalize (2 : ℚ) ^ 1024 = t at *
  linarith

/-- Infinity is what a number is rounded to that is too large. -/
theorem roundsTo_infinity (hLe : 2 ^ 1024 - 2 ^ 970 ≤ q) (negative : Bool) :
    RoundsTo negative q (infinity negative) := by
  obtain ⟨hSign, hMagnitude⟩ := parts_ofMagnitude negative (2047 <<< 52)
  have hTop : (infinity negative).magnitude = top := hMagnitude.trans (by decide)
  have hNotFinite : ¬(infinity negative).IsFinite := by
    unfold IsFinite
    omega
  refine ⟨hSign, ?_, ?_, fun h => absurd h hNotFinite, fun h => absurd h hNotFinite, ?_⟩
  · unfold IsNaN
    omega
  · exact iff_of_true hTop hLe
  · rw [hTop]
    exact iff_of_false (by decide) (not_le.mpr (lt_of_lt_of_le middle_lt_middle hLe))

theorem roundsTo_zero (hNonneg : 0 ≤ q) (hLe : q ≤ 2 ^ (-1075 : ℤ)) (negative : Bool) :
    RoundsTo negative q (zero negative) :=
  (nearest_zero hNonneg hLe).roundsTo hNonneg negative

/-- Below infinity the magnitude of the result is the nearest one. -/
theorem RoundsTo.nearest_magnitude (h : RoundsTo negative q x) (hLt : q < 2 ^ 1024 - 2 ^ 970) :
    Nearest x.magnitude q := by
  have hFinite : x.IsFinite := by
    have hNotNaN := h.not_nan
    have hNotInfinite : ¬x.IsInfinite := fun hInfinite => absurd (h.infinite_iff.mp hInfinite)
      (not_le.mpr hLt)
    unfold IsNaN at hNotNaN
    unfold IsInfinite at hNotInfinite
    unfold IsFinite
    omega
  have hWord : ∀ j < top, (ofMagnitude negative j).IsFinite ∧
      (ofMagnitude negative j).value = signed negative (grid j) := by
    intro j hj
    obtain ⟨hSign, hMagnitude⟩ := parts_ofMagnitude negative j
    rw [min_eq_left hj.le] at hMagnitude
    rw [IsFinite, value, hSign, hMagnitude]
    exact ⟨hj, rfl⟩
  have hValue : x.value = signed negative (grid x.magnitude) := by rw [value, h.sign]
  have hLe : ∀ j < top, |grid x.magnitude - q| ≤ |grid j - q| := by
    intro j hj
    obtain ⟨hFiniteWord, hWordValue⟩ := hWord j hj
    have hNear := h.nearest hFinite _ hFiniteWord
    rwa [hValue, hWordValue, abs_signed_sub, abs_signed_sub] at hNear
  have hBeyond : ∀ j, top ≤ j → |grid x.magnitude - q| < |grid j - q| := fun j hj =>
    lt_of_le_of_lt (hLe _ (by decide)) (abs_top_pred_sub_lt hLt hj)
  constructor
  · intro j
    rcases Nat.lt_or_ge j top with hj | hj
    · exact hLe j hj
    · exact (hBeyond j hj).le
  · intro j hNe hEq
    rcases Nat.lt_or_ge j top with hj | hj
    · obtain ⟨hFiniteWord, hWordValue⟩ := hWord j hj
      rw [← even_significand]
      refine h.even hFinite _ hFiniteWord ?_ ?_
      · rw [hValue, hWordValue]
        intro hValues
        refine hNe (grid_strictMono.injective ?_)
        cases negative
        · exact hValues
        · exact neg_injective hValues
      · rw [hValue, hWordValue, abs_signed_sub, abs_signed_sub, hEq]
    · exact absurd hEq (hBeyond j hj).ne'

/-- There is one result of rounding. -/
theorem RoundsTo.unique (hx : RoundsTo negative q x) (hy : RoundsTo negative q y) : x = y := by
  apply eq_of_parts
  · rw [hx.sign, hy.sign]
  · by_cases hLe : 2 ^ 1024 - 2 ^ 970 ≤ q
    · exact (hx.infinite_iff.mpr hLe).trans (hy.infinite_iff.mpr hLe).symm
    · exact (hx.nearest_magnitude (not_le.mp hLe)).unique (hy.nearest_magnitude (not_le.mp hLe))

/-- The sign can be applied to the result. -/
theorem RoundsTo.negate (h : RoundsTo negative q x) (hNonneg : 0 ≤ q) :
    RoundsTo (!negative) q x.negate := by
  obtain ⟨hSign, hMagnitude⟩ := parts_negate x
  rw [h.sign] at hSign
  by_cases hLe : 2 ^ 1024 - 2 ^ 970 ≤ q
  · have hInfinity := roundsTo_infinity hLe (!negative)
    have hEq : x.negate = infinity (!negative) := by
      refine eq_of_parts (hSign.trans hInfinity.sign.symm) (hMagnitude.trans ?_)
      exact (h.infinite_iff.mpr hLe).trans (hInfinity.infinite_iff.mpr hLe).symm
    rwa [hEq]
  · have hNearest := h.nearest_magnitude (not_le.mp hLe)
    have hTop : x.magnitude < top := not_le.mp (mt hNearest.top_le_iff.mp hLe)
    obtain ⟨hSign', hMagnitude'⟩ := parts_ofMagnitude (!negative) x.magnitude
    rw [min_eq_left hTop.le] at hMagnitude'
    have hEq : x.negate = ofMagnitude (!negative) x.magnitude :=
      eq_of_parts (hSign.trans hSign'.symm) (hMagnitude.trans hMagnitude'.symm)
    rw [hEq]
    exact hNearest.roundsTo hNonneg _

/-! ## Decimals -/

/-- The powers of ten that are rounded to infinity. -/
theorem middle_le_pow {k : ℕ} (hLe : 309 ≤ k) : (2 : ℚ) ^ 1024 - 2 ^ 970 ≤ 10 ^ k := by
  have hBound : (2 : ℚ) ^ 93 ≤ 10 ^ 28 := by norm_num
  have hPos : (0 : ℚ) < 2 ^ 970 := by positivity
  calc (2 : ℚ) ^ 1024 - 2 ^ 970 ≤ 2 ^ 1024 := sub_le_self _ hPos.le
    _ = (2 ^ 93) ^ 11 * 2 := by rw [← pow_mul, ← pow_succ]
    _ ≤ (10 ^ 28) ^ 11 * 10 := by gcongr; norm_num
    _ = 10 ^ 309 := by rw [← pow_mul, ← pow_succ]
    _ ≤ 10 ^ k := pow_le_pow_right₀ (by norm_num) hLe

/-- A decimal of this size is rounded to infinity. -/
theorem middle_le_of_large {n : ℕ} {e : ℤ} (hn : 0 < n) (hLe : 309 ≤ e) :
    (2 : ℚ) ^ 1024 - 2 ^ 970 ≤ n * 10 ^ e := by
  obtain ⟨k, rfl⟩ := Int.eq_ofNat_of_zero_le (by omega : 0 ≤ e)
  have hOne : (1 : ℚ) ≤ n := by exact_mod_cast hn
  have hPow : (2 : ℚ) ^ 1024 - 2 ^ 970 ≤ 10 ^ k := middle_le_pow (by omega)
  rw [zpow_natCast]
  exact hPow.trans (le_mul_of_one_le_left (by positivity) hOne)

/-- A tenth is less than an eighth. -/
theorem ten_zpow_neg_le (k : ℕ) : (10 : ℚ) ^ (-(k : ℤ)) ≤ 2 ^ (3 * -(k : ℤ)) := by
  have hPow : ((2 : ℚ) ^ 3) ^ k ≤ 10 ^ k := by gcongr; norm_num
  rw [mul_neg, zpow_neg, zpow_neg, zpow_mul, zpow_natCast, zpow_natCast]
  exact inv_anti₀ (by positivity) hPow

/-- A decimal is rounded to the nearest number of the format, whatever its power of ten. -/
theorem ofDecimal_roundsTo (negative : Bool) (n : ℕ) (e : ℤ) :
    RoundsTo negative (n * 10 ^ e) (ofDecimal negative n e) := by
  unfold ofDecimal
  split_ifs with hZero hLarge hSmall
  · subst hZero
    rw [Nat.cast_zero, zero_mul]
    exact roundsTo_zero le_rfl (by positivity) negative
  · have hn : 0 < n := Nat.pos_of_ne_zero hZero
    exact roundsTo_infinity (middle_le_of_large hn hLarge) negative
  · refine roundsTo_zero (by positivity) ?_ negative
    obtain ⟨-, hLt⟩ := log2_bounds (Nat.pos_of_ne_zero hZero)
    obtain ⟨k, rfl⟩ : ∃ k : ℕ, e = -k := ⟨(-e).toNat, by omega⟩
    have hTen := ten_zpow_neg_le k
    calc (n : ℚ) * 10 ^ (-(k : ℤ)) ≤ 2 ^ ((n.log2 : ℤ) + 1) * 2 ^ (3 * -(k : ℤ)) := by gcongr
      _ = 2 ^ ((n.log2 : ℤ) + 1 + 3 * -(k : ℤ)) := (zpow_add₀ two_ne_zero _ _).symm
      _ ≤ 2 ^ (-1075 : ℤ) := zpow_le_zpow_right₀ one_le_two (by omega)
  · have hn : 0 < n := Nat.pos_of_ne_zero hZero
    have hPow : ∀ k, 0 < Nat.pow 10 k := fun k => Nat.pow_pos (by decide)
    cases e with
    | ofNat k =>
      obtain ⟨m, hEq, hNearest⟩ := exists_nearest_of_ofRatio negative (Nat.mul_pos hn (hPow k))
        Nat.one_pos
      change RoundsTo negative _ (ofRatio negative (n * Nat.pow 10 k) 1)
      rw [hEq]
      have hValue : ((n * Nat.pow 10 k : ℕ) : ℚ) / (1 : ℕ) = n * 10 ^ (Int.ofNat k) := by
        simp
      rw [hValue] at hNearest
      exact hNearest.roundsTo (by positivity) negative
    | negSucc k =>
      obtain ⟨m, hEq, hNearest⟩ := exists_nearest_of_ofRatio negative hn (hPow (k + 1))
      change RoundsTo negative _ (ofRatio negative n (Nat.pow 10 (k + 1)))
      rw [hEq]
      have hValue : (n : ℚ) / (Nat.pow 10 (k + 1) : ℕ) = n * 10 ^ (Int.negSucc k) := by
        simp [zpow_negSucc, div_eq_mul_inv]
      rw [hValue] at hNearest
      exact hNearest.roundsTo (by positivity) negative

end Binary64

end Packrat

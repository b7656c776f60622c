import Mathlib.Data.Nat.Digits.Lemmas
import Packrat.Proofs.Numbers
import Packrat.Proofs.Rounding

/-!
# Numbers are rounded once

The parts of a number are written down as a text, which is read as a floating-point number.
The text always is one, and it stands for the number that was read but for its exponent,
which is limited to 32 bits. The limit does not show: with at most two billion digits on each
side of the point, an exponent beyond it makes the number infinite or zero anyway. So the
result is the exact number, rounded once.

* `Numeral.exponentOf_eq`, `Numeral.toInt_power`: the limited exponent, by induction on its
  digits, and its sign;
* `Numeral.ofText?_text`: the text of a decimal is read as its numeral;
* `Binary64.RoundsTo.of_limited`: the limit of the exponent does not show;
* `NumberText.exactValue`, `NumberText.RoundedOnce`: the exact number, and what it is to be
  rounded once;
* `Grammar.number_roundedOnce`: every number that is read is rounded once.
-/

namespace Packrat

open Input List

namespace Numeral

/-! ## Exponents -/

/-- The limit can be applied at the end, by induction on the digits: a number that has
reached it does not get smaller. -/
theorem foldl_growExponent (digits : List ℕ) : ∀ n,
    digits.foldl growExponent (min n maxExponent) =
      min (digits.foldl (fun n digit => n * 10 + digit) n) maxExponent := by
  induction digits with
  | nil => exact fun n => rfl
  | cons digit digits ih =>
    intro n
    have hStep : growExponent (min n maxExponent) digit = min (n * 10 + digit) maxExponent := by
      unfold growExponent maxExponent
      omega
    rw [foldl_cons, foldl_cons, hStep, ih]

theorem exponentOf_eq (digits : List ℕ) :
    exponentOf digits = min (ofDigits digits) maxExponent :=
  foldl_growExponent digits 0

/-- The exponent with its sign has 32 bits. -/
theorem toInt_power (negative : Bool) (digits : List ℕ) :
    (power negative digits).toInt = signed negative (exponentOf digits) := by
  have hLt : exponentOf digits < 2 ^ 31 := by
    rw [exponentOf_eq]
    exact Nat.lt_succ_of_le (Nat.min_le_right _ _)
  have hMagnitude := Int32.toInt_ofNat_of_lt hLt
  unfold power signed
  cases negative
  · exact (congrArg Int32.toInt (Int32.one_mul _)).trans hMagnitude
  · have hMinus : (-1 : Int32).toInt = -1 := by decide
    simp only [if_true, Int32.toInt_mul, hMagnitude, hMinus]
    rw [Int.bmod_eq_of_le (by omega) (by omega)]
    omega

/-! ## Digits -/

theorem ofDigits_eq (digits : List ℕ) : ofDigits digits = Nat.ofDigits 10 digits.reverse := by
  rw [Nat.ofDigits_eq_foldr, foldr_reverse, ofDigits]
  congr 1
  ext n digit
  change n * 10 + digit = digit + 10 * n
  ring

theorem ofDigits_append (s t : List ℕ) :
    ofDigits (s ++ t) = ofDigits s * 10 ^ t.length + ofDigits t := by
  rw [ofDigits_eq, ofDigits_eq, ofDigits_eq, reverse_append, Nat.ofDigits_append, length_reverse]
  ring

theorem ofDigits_lt {digits : List ℕ} (h : ∀ d ∈ digits, d < 10) :
    ofDigits digits < 10 ^ digits.length := by
  rw [ofDigits_eq, ← length_reverse]
  exact Nat.ofDigits_lt_base_pow_length (by decide) fun d hd => h d (mem_reverse.mp hd)

theorem digitValue_lt (c : Char) : Operation.digitValue c < 10 := by
  unfold Operation.digitValue
  split
  · rename_i hDigit
    simp only [Char.isDigit, Bool.and_eq_true, decide_eq_true_eq] at hDigit
    have hLe : c.toNat ≤ 57 := hDigit.2
    have hZero : '0'.toNat = 48 := rfl
    omega
  · decide

/-! ## Texts -/

theorem splitDigits_append {s t : List Char} (hDigits : ∀ c ∈ s, c.isDigit)
    (hStop : ∀ c ∈ t.head?, ¬c.isDigit) :
    splitDigits (s ++ t) = (s.map Operation.digitValue, t) := by
  have hNone : t.takeWhile Char.isDigit = [] ∧ t.dropWhile Char.isDigit = t := by
    cases t with
    | nil => exact ⟨rfl, rfl⟩
    | cons c t =>
      have hFirst := hStop c rfl
      exact ⟨takeWhile_cons_of_neg hFirst, dropWhile_cons_of_neg hFirst⟩
  unfold splitDigits
  rw [takeWhile_append_of_pos hDigits, dropWhile_append_of_pos hDigits, hNone.1, hNone.2,
    append_nil]

/-- The sign of a text is read as the sign of an integer is. -/
theorem splitSign_eq (s : List Char) :
    splitSign s = (decide (IntegerText.sign s = ['-']), IntegerText.unsigned s) := by
  unfold splitSign IntegerText.unsigned
  split
  · rfl
  · rfl
  · rename_i hMinus hPlus
    have hNone : IntegerText.sign s = [] := by
      unfold IntegerText.sign
      split
      · exact absurd rfl (hPlus _)
      · exact absurd rfl (hMinus _)
      · rfl
    rw [hNone]
    rfl

theorem splitSign_cons {c : Char} {s : List Char} (h : c.isDigit) :
    splitSign (c :: s) = (false, c :: s) := by
  rw [splitSign_eq, IntegerText.unsigned, IntegerText.sign_eq_nil h]
  rfl

theorem splitSign_toString (n : ℤ) :
    splitSign (toString n).toList = (decide (n < 0), Nat.toDigits 10 n.natAbs) := by
  have hSign := IntegerText.sign_toString n []
  rw [append_nil] at hSign
  have hUnsigned : IntegerText.unsigned (toString n).toList = Nat.toDigits 10 n.natAbs := by
    apply IntegerText.unsigned_eq
    rw [hSign, IntegerText.toList_toString]
  rw [splitSign_eq, hUnsigned, hSign]
  by_cases hNegative : n < 0
  · rw [if_pos hNegative, decide_eq_true hNegative]
    rfl
  · rw [if_neg hNegative, decide_eq_false hNegative]
    rfl

/-- The text of an integer after the marker is read back. -/
theorem ending?_toString (n : ℤ) : ending? ('e' :: (toString n).toList) = some n := by
  have hDigits : ∀ c ∈ Nat.toDigits 10 n.natAbs, c.isDigit := fun c => IntegerText.isDigit_of_mem
  have hSplit := splitDigits_append hDigits (t := []) (by simp)
  rw [append_nil] at hSplit
  have hSome : (Nat.toDigits 10 n.natAbs).map Operation.digitValue ≠ [] := by
    simp
  have hNumber : ofDigits ((Nat.toDigits 10 n.natAbs).map Operation.digitValue) = n.natAbs := by
    rw [ofDigits_digitValue hDigits, Nat.ofDigitChars_ten_toDigits]
  have hMarker : 'e'.toLower = 'e' := by decide
  simp only [ending?, splitSign_toString, hSplit, hMarker, true_and, and_true, hNumber,
    if_pos hSome, decide_eq_true_eq, Option.some.injEq]
  split <;> omega

/-- A decimal with digits on both sides of its point is read as a numeral. -/
theorem ofChars?_text {whole fraction : List Char} (hWhole : ∀ c ∈ whole, c.isDigit)
    (hFraction : ∀ c ∈ fraction, c.isDigit) (hSome : whole ≠ []) (negative : Bool) (n : ℤ) :
    ofChars? negative (whole ++ '.' :: (fraction ++ 'e' :: (toString n).toList)) =
      some ⟨negative, whole.map Operation.digitValue, fraction.map Operation.digitValue, n⟩ := by
  have hPoint : ∀ c ∈ ('.' :: (fraction ++ 'e' :: (toString n).toList)).head?, ¬c.isDigit := by
    simp
  have hMarker : ∀ c ∈ ('e' :: (toString n).toList).head?, ¬c.isDigit := by
    simp
  have hDigits : ¬(whole.map Operation.digitValue = [] ∧
      fraction.map Operation.digitValue = []) := fun h => hSome (map_eq_nil_iff.mp h.1)
  simp only [ofChars?, splitDigits_append hWhole hPoint, splitFraction,
    splitDigits_append hFraction hMarker, if_neg hDigits, ending?_toString, Option.map_some]

theorem toLower_eq_of_isDigit {c : Char} (h : c.isDigit) : c.toLower = c := by
  simp only [Char.isDigit, Bool.and_eq_true, decide_eq_true_eq] at h
  have hLe : c.toNat ≤ 57 := h.2
  unfold Char.toLower
  rw [dif_neg]
  rintro ⟨hUpper, -⟩
  have hGe : 65 ≤ c.toNat := hUpper
  omega

/-- Text that starts with a digit is no word. -/
theorem ofText?_of_digit {c : Char} {s : List Char} (h : c.isDigit) :
    Binary64.ofText? (String.ofList (c :: s)) = (ofChars? false (c :: s)).map value := by
  have hLower := toLower_eq_of_isDigit h
  have hWord : ∀ (word : String) (d : Char) (t : List Char), word.toList = d :: t →
      ¬d.isDigit → String.ofList ((c :: s).map Char.toLower) ≠ word := by
    rintro word d t hWord hDigit rfl
    rw [String.toList_ofList, map_cons, hLower] at hWord
    obtain ⟨rfl, -⟩ := cons_eq_cons.mp hWord
    exact hDigit h
  unfold Binary64.ofText?
  simp only [String.toList_ofList, splitSign_cons h]
  rw [if_neg, if_neg]
  · exact hWord "nan" 'n' _ rfl (by decide)
  · exact not_or.mpr ⟨hWord "inf" 'i' _ rfl (by decide), hWord "infinity" 'i' _ rfl (by decide)⟩

/-- The text of a decimal is read: it is never without a number. -/
theorem ofText?_text {whole fraction : List Char} (hWhole : ∀ c ∈ whole, c.isDigit)
    (hFraction : ∀ c ∈ fraction, c.isDigit) (hSome : whole ≠ []) (power : Int32) :
    Binary64.ofText? (text (String.ofList whole) (String.ofList fraction) power) =
      some (value ⟨false, whole.map Operation.digitValue, fraction.map Operation.digitValue,
        power.toInt⟩) := by
  have hText : text (String.ofList whole) (String.ofList fraction) power =
      String.ofList (whole ++ '.' :: (fraction ++ 'e' :: (toString power.toInt).toList)) := by
    apply String.toList_inj.mp
    simp [text]
  rw [hText]
  have hChars := ofChars?_text hWhole hFraction hSome false power.toInt
  cases whole with
  | nil => exact absurd rfl hSome
  | cons c whole =>
    rw [cons_append] at hChars ⊢
    rw [ofText?_of_digit (hWhole c mem_cons_self), hChars]
    rfl

end Numeral

/-! ## Limited exponents -/

namespace Binary64

variable {negative down : Bool} {N f k X : ℕ} {x : Binary64}

/-- A decimal below such a power of ten is rounded to zero. -/
theorem le_middle_of_small {e : ℤ} (hN : N < 10 ^ k) (hLe : k + e ≤ -359) :
    (N : ℚ) * 10 ^ e ≤ 2 ^ (-1075 : ℤ) := by
  obtain ⟨j, hj⟩ : ∃ j : ℕ, k + e = -j := ⟨(-(k + e)).toNat, by omega⟩
  have hN' : (N : ℚ) ≤ 10 ^ (k : ℤ) := by
    rw [zpow_natCast]
    exact_mod_cast hN.le
  calc (N : ℚ) * 10 ^ e ≤ 10 ^ (k : ℤ) * 10 ^ e := by gcongr
    _ = 10 ^ (-(j : ℤ)) := by rw [← zpow_add₀ (by norm_num), hj]
    _ ≤ 2 ^ (3 * -(j : ℤ)) := ten_zpow_neg_le j
    _ ≤ 2 ^ (-1075 : ℤ) := zpow_le_zpow_right₀ one_le_two (by omega)

/-- A limit of the exponent does not show in the result: where it is exceeded, the result is
infinity or zero with it and without it. -/
theorem RoundsTo.of_limited (hN : N < 10 ^ (k + f)) (hk : k ≤ 2000000000) (hf : f ≤ 2000000000)
    (h : RoundsTo negative
      (N * 10 ^ (Numeral.signed down (min X Numeral.maxExponent) - f)) x) :
    RoundsTo negative (N * 10 ^ (Numeral.signed down X - f)) x := by
  by_cases hLe : X ≤ Numeral.maxExponent
  · rwa [min_eq_left hLe] at h
  rw [min_eq_right (by omega)] at h
  have hMax : Numeral.maxExponent = 2147483647 := rfl
  rcases Nat.eq_zero_or_pos N with rfl | hPos
  · rwa [Nat.cast_zero, zero_mul] at h ⊢
  · cases down
    · have hInfinity : ∀ Y : ℕ, 2147483647 ≤ Y →
          RoundsTo negative (N * 10 ^ (Numeral.signed false Y - f)) (infinity negative) := by
        intro Y hY
        unfold Numeral.signed
        refine roundsTo_infinity (middle_le_of_large hPos ?_) negative
        rw [if_neg (by decide)]
        omega
      rw [h.unique (hInfinity _ hMax.ge)]
      exact hInfinity X (by omega)
    · have hZero : ∀ Y : ℕ, 2147483647 ≤ Y →
          RoundsTo negative (N * 10 ^ (Numeral.signed true Y - f)) (zero negative) := by
        intro Y hY
        unfold Numeral.signed
        refine roundsTo_zero (by positivity) (le_middle_of_small hN ?_) negative
        rw [if_pos rfl]
        omega
      rw [h.unique (hZero _ hMax.ge)]
      exact hZero X (by omega)

end Binary64

/-! ## Numbers -/

namespace NumberText

section

variable (s : List Char)

/-- The digits after the point, or a zero. -/
def fractionDigits : List Char :=
  if point s = [] then ['0'] else fraction s

/-- The parts of a number as a numeral, with any exponent. -/
def numeral (e : ℤ) : Numeral :=
  ⟨false, (IntegerText.digits s).map Operation.digitValue,
    (fractionDigits s).map Operation.digitValue, e⟩

/-- What the digits before and after the point stand for. -/
def mantissa : ℚ :=
  Nat.ofDigitChars 10 (IntegerText.digits s) 0 +
    Nat.ofDigitChars 10 (fraction s) 0 / 10 ^ (fraction s).length

/-- What the digits of the power stand for, however many there are. -/
def powerNumber : ℕ :=
  Nat.ofDigitChars 10 (power s) 0

/-- The absolute value of the number, with nothing rounded or limited. -/
def exactValue : ℚ :=
  mantissa s * 10 ^ Numeral.signed (down s) (powerNumber s)

/-- A number is rounded once: the limit of the exponent does not show in the result, and the
text that is read in between is always the text of a number. -/
structure RoundedOnce (x : Binary64) : Prop where
  /-- The result is the number nearest to the exact value. -/
  roundsTo : Binary64.RoundsTo (negative s) (exactValue s) x
  /-- The exponent is limited to 31 bits. -/
  exponentOf_eq : Numeral.exponentOf ((power s).map Operation.digitValue) =
    min (powerNumber s) (2 ^ 31 - 1)
  /-- With its sign it is the same number in 32 bits. -/
  toInt_exponent : (exponent s).toInt =
    Numeral.signed (down s) (min (powerNumber s) (2 ^ 31 - 1))
  /-- The text is read, so nothing has to stand in for it. -/
  ofText?_eq : Binary64.ofText? (Numeral.text (String.ofList (IntegerText.digits s))
    (fractionText s) (exponent s)) = some (magnitude s)
  /-- What is read is what would be read without the limit. -/
  magnitude_eq : magnitude s =
    (numeral s (Numeral.signed (down s) (powerNumber s))).value
  /-- The sign is applied to what is read. -/
  value_eq : x = if negative s then (magnitude s).negate else magnitude s

end

variable {s : List Char}

theorem isDigit_of_mem_digits {c : Char} (h : c ∈ IntegerText.digits s) : c.isDigit :=
  all_eq_true.mp all_takeWhile c h

theorem isDigit_of_mem_fraction {c : Char} (h : c ∈ fraction s) : c.isDigit :=
  all_eq_true.mp all_takeWhile c h

theorem isDigit_of_mem_fractionDigits {c : Char} (h : c ∈ fractionDigits s) : c.isDigit := by
  unfold fractionDigits at h
  split at h
  · rw [mem_singleton.mp h]
    rfl
  · exact isDigit_of_mem_fraction h

theorem fractionText_eq (s : List Char) : fractionText s = String.ofList (fractionDigits s) := by
  unfold fractionText fractionDigits
  split <;> rfl

/-- A zero after the point changes nothing. -/
theorem fractionDigits_value (s : List Char) :
    (Nat.ofDigitChars 10 (fractionDigits s) 0 : ℚ) / 10 ^ (fractionDigits s).length =
      Nat.ofDigitChars 10 (fraction s) 0 / 10 ^ (fraction s).length := by
  unfold fractionDigits
  split
  · rename_i hPoint
    rw [fraction_eq_nil hPoint]
    have hZero : Nat.ofDigitChars 10 ['0'] 0 = 0 := by decide
    have hNone : Nat.ofDigitChars 10 [] 0 = 0 := by decide
    rw [hZero, hNone, Nat.cast_zero, zero_div, zero_div]
  · rfl

/-- All digits and the exponent that goes with them. -/
theorem ofDigits_mul_eq (s : List Char) (e : ℤ) :
    (Numeral.ofDigits ((numeral s e).whole ++ (numeral s e).fraction) : ℚ) *
      10 ^ (e - (numeral s e).fraction.length) = mantissa s * 10 ^ e := by
  have hWhole := Numeral.ofDigits_digitValue (s := IntegerText.digits s)
    fun c => isDigit_of_mem_digits
  have hFraction := Numeral.ofDigits_digitValue (s := fractionDigits s)
    fun c => isDigit_of_mem_fractionDigits
  have hPow : (10 : ℚ) ^ (fractionDigits s).length ≠ 0 := by positivity
  unfold numeral mantissa
  rw [Numeral.ofDigits_append, hWhole, hFraction, length_map, ← fractionDigits_value,
    zpow_sub₀ (by norm_num), zpow_natCast]
  push_cast
  field_simp

/-- The digits are those of a number with as many places. -/
theorem ofDigits_numeral_lt (s : List Char) (e : ℤ) :
    Numeral.ofDigits ((numeral s e).whole ++ (numeral s e).fraction) <
      10 ^ ((IntegerText.digits s).length + (numeral s e).fraction.length) := by
  have hDigits : ∀ d ∈ (numeral s e).whole ++ (numeral s e).fraction, d < 10 := by
    intro d hd
    rw [numeral, ← map_append] at hd
    obtain ⟨c, -, rfl⟩ := mem_map.mp hd
    exact Numeral.digitValue_lt c
  have hLt := Numeral.ofDigits_lt hDigits
  rwa [length_append, numeral, length_map] at hLt

theorem exponentOf_power (s : List Char) :
    Numeral.exponentOf ((power s).map Operation.digitValue) =
      min (powerNumber s) (2 ^ 31 - 1) := by
  have hDigits : ∀ c ∈ power s, c.isDigit := fun c => isDigit_of_mem_digits
  rw [Numeral.exponentOf_eq, Numeral.ofDigits_digitValue hDigits]
  rfl

theorem toInt_exponent (s : List Char) : (exponent s).toInt =
    Numeral.signed (down s) (min (powerNumber s) (2 ^ 31 - 1)) := by
  rw [exponent, Numeral.toInt_power, exponentOf_power]

/-- A complete number is read from its text. -/
theorem Complete.ofText?_eq (h : Complete s) : Binary64.ofText? (Numeral.text
    (String.ofList (IntegerText.digits s)) (fractionText s) (exponent s)) =
      some (numeral s (exponent s).toInt).value := by
  rw [fractionText_eq]
  exact Numeral.ofText?_text (fun c => isDigit_of_mem_digits)
    (fun c => isDigit_of_mem_fractionDigits) h.whole _

theorem Complete.magnitude_eq (h : Complete s) :
    magnitude s = (numeral s (exponent s).toInt).value := by
  rw [magnitude, Numeral.decimal, h.ofText?_eq]
  rfl

/-- Without a limit the exponent is that of the exact value. -/
theorem value_numeral_roundsTo (s : List Char) : Binary64.RoundsTo false (exactValue s)
    (numeral s (Numeral.signed (down s) (powerNumber s))).value := by
  rw [exactValue, ← ofDigits_mul_eq]
  exact Binary64.ofDecimal_roundsTo _ _ _

/-- With the limit the result is the same. -/
theorem magnitude_roundsTo (h : Complete s)
    (hWhole : (IntegerText.digits s).length ≤ 2000000000)
    (hFraction : (fraction s).length ≤ 2000000000) :
    Binary64.RoundsTo false (exactValue s) (magnitude s) := by
  have hPlaces : (numeral s 0).fraction.length ≤ 2000000000 := by
    rw [numeral, length_map, fractionDigits]
    split
    · decide
    · exact hFraction
  rw [exactValue, ← ofDigits_mul_eq, h.magnitude_eq]
  refine Binary64.RoundsTo.of_limited (ofDigits_numeral_lt s 0) hWhole hPlaces ?_
  have hRounds := Binary64.ofDecimal_roundsTo false (Numeral.ofDigits
    ((numeral s 0).whole ++ (numeral s 0).fraction))
      ((exponent s).toInt - (numeral s 0).fraction.length)
  rwa [toInt_exponent] at hRounds ⊢

theorem exactValue_nonneg (s : List Char) : 0 ≤ exactValue s := by
  unfold exactValue mantissa
  positivity

/-- A complete number is rounded once. -/
theorem roundedOnce_value (h : Complete s)
    (hWhole : (IntegerText.digits s).length ≤ 2000000000)
    (hFraction : (fraction s).length ≤ 2000000000) : RoundedOnce s (value s) := by
  have hRounds := magnitude_roundsTo h hWhole hFraction
  refine ⟨?_, exponentOf_power s, toInt_exponent s, ?_, ?_, rfl⟩
  · unfold value
    split
    · rename_i hNegative
      rw [hNegative]
      exact hRounds.negate (exactValue_nonneg s)
    · rename_i hNegative
      rw [Bool.eq_false_of_not_eq_true hNegative]
      exact hRounds
  · rw [h.ofText?_eq, h.magnitude_eq]
  · exact hRounds.unique (value_numeral_roundsTo s)

end NumberText

/-- Every number that is read is rounded once, if it has at most two billion digits before
its point and after it. -/
theorem Grammar.number_roundedOnce {C τ σ : Type} [Input C τ σ] [InputView C τ σ] [Token τ]
    [ToValue τ] [ToValue σ] [LawfulInput C] [LawfulToken τ] (call : Reference → Parser C Value)
    (a : Address) {c : C} (hComplete : NumberText.Complete (unread c))
    (hWhole : (IntegerText.digits (unread c)).length ≤ 2000000000)
    (hFraction : (NumberText.fraction (unread c)).length ≤ 2000000000) (st : State C) :
    ∃ x d, number.parser call a c st = some (.ok (.float x, d), st) ∧
      NumberText.RoundedOnce (unread c) x := by
  rcases number_cases call a c with ⟨-, tokens, d, -, -, hRun⟩ | ⟨hNot, -⟩
  · exact ⟨_, d, congrFun hRun st, NumberText.roundedOnce_value hComplete hWhole hFraction⟩
  · exact absurd hComplete hNot

/-- A number whose exponent does not fit in 32 bits, and whose sign comes last. -/
theorem Grammar.number_roundedOnce_of_large :
    ∃ x d, number.parser (fun _ => .silent) .fresh
        (SliceCursor.ofSource ⟨0, "-0.25e4294967297".toList.toArray⟩) {} =
          some (.ok (.float x, d), {}) ∧
      NumberText.RoundedOnce "-0.25e4294967297".toList x ∧ x = .infinity true := by
  obtain ⟨x, d, hRun, hRounded⟩ := number_roundedOnce (fun _ => .silent) .fresh
    (c := SliceCursor.ofSource ⟨0, "-0.25e4294967297".toList.toArray⟩)
    ⟨by decide, fun _ => by decide, fun _ => by decide⟩ (by decide) (by decide) {}
  have hUnread : unread (SliceCursor.ofSource ⟨0, "-0.25e4294967297".toList.toArray⟩) =
      "-0.25e4294967297".toList := by decide
  rw [hUnread] at hRounded
  exact ⟨x, d, hRun, hRounded, hRounded.value_eq.trans (by decide)⟩

end Packrat

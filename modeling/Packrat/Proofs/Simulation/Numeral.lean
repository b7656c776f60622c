import Packrat.Grammar.Number
import Packrat.Grammar.Parser
import Packrat.Proofs.Simulation.Token

/-!
# Simulation of numerals

The value of a numeral depends only on the characters of its tokens. This is
plain for the digits of integers and of exponents, which are read through the
characters. The other digits of floating-point numbers are read through the text
of their tokens, and the text of bytes is not the text of their characters in
general, but it is for digits.

* `LawfulToken`: what the text and the value of tokens have to do with their
  characters;
* `Utf8.text_eq_of_ascii`: the text of ASCII bytes;
* `Simulates.integer`, `Simulates.number`: numerals have equal values on both
  sides.
-/

namespace Packrat

open Input List

/-! ## Bytes below 128 -/

/-- The text of ASCII bytes is made of the characters of their codes. -/
theorem Utf8.text_eq_of_ascii {bytes : List UInt8} (hAscii : ∀ b ∈ bytes, b < 0x80) :
    Utf8.text bytes = String.ofList (bytes.map fun b => Char.ofNat b.toNat) := by
  unfold Utf8.text
  congr 1
  induction bytes with
  | nil => rfl
  | cons b bytes ih =>
    have hAdvance : Utf8.advance b = ([Char.ofNat b.toNat], none) := by
      unfold Utf8.advance Utf8.start
      rw [if_pos (hAscii b mem_cons_self)]
    rw [Utf8.decodeFrom, hAdvance, ih fun b hb => hAscii b (mem_cons_of_mem _ hb)]
    rfl

theorem toNat_ofNat_byte (b : UInt8) : (Char.ofNat b.toNat).toNat = b.toNat := by
  have hLt := b.toNat_lt
  unfold Char.ofNat
  rw [dif_pos (.inl (by omega))]
  rfl

/-- A byte that stands for a digit is an ASCII byte. -/
theorem byte_lt_of_isDigit {b : UInt8} (hDigit : (Char.ofNat b.toNat).isDigit) : b < 0x80 := by
  have hLe : (Char.ofNat b.toNat).toNat ≤ 57 := by
    simp only [Char.isDigit, Bool.and_eq_true, decide_eq_true_eq] at hDigit
    exact hDigit.2
  rw [toNat_ofNat_byte] at hLe
  exact UInt8.lt_iff_toNat_lt.mpr (Nat.lt_of_le_of_lt hLe (by decide))

/-! ## Tokens -/

/-- Tokens whose values stand for their characters, and whose texts are made of
them as far as digits are concerned. -/
class LawfulToken (τ : Type) [Token τ] [ToValue τ] : Prop where
  token?_toValue : ∀ x : τ, (ToValue.toValue x).token? = some (Token.toChar x)
  textOf_digits : ∀ {tokens : List τ}, (∀ x ∈ tokens, (Token.toChar x).isDigit) →
    Grammar.textOf (.list (tokens.map ToValue.toValue)) =
      .text (String.ofList (tokens.map Token.toChar))

instance : LawfulToken Char where
  token?_toValue _ := rfl
  textOf_digits {tokens} _ := by
    have hChars : (tokens.map ToValue.toValue).filterMap Value.char? = tokens := by
      rw [filterMap_map]
      exact filterMap_some
    have hBytes : (tokens.map ToValue.toValue).filterMap Value.byte? = [] := by
      rw [filterMap_map, filterMap_eq_nil_iff]
      exact fun _ _ => rfl
    simp only [Grammar.textOf, hChars, hBytes]
    rw [show (tokens.map Token.toChar) = tokens from map_id tokens]
    exact congrArg Value.text (String.append_empty)

instance : LawfulToken UInt8 where
  token?_toValue _ := rfl
  textOf_digits {tokens} hDigits := by
    have hChars : (tokens.map ToValue.toValue).filterMap Value.char? = [] := by
      rw [filterMap_map, filterMap_eq_nil_iff]
      exact fun _ _ => rfl
    have hBytes : (tokens.map ToValue.toValue).filterMap Value.byte? = tokens := by
      rw [filterMap_map]
      exact filterMap_some
    simp only [Grammar.textOf, hChars, hBytes]
    refine congrArg Value.text ?_
    exact String.empty_append.trans
      (Utf8.text_eq_of_ascii fun b hb => byte_lt_of_isDigit (hDigits b hb))

/-- The digits of tokens are those of their characters. -/
theorem Grammar.digitsOf_toValue {τ : Type} [Token τ] [ToValue τ] [LawfulToken τ]
    (tokens : List τ) : digitsOf (.list (tokens.map ToValue.toValue)) =
      (tokens.map Token.toChar).map Operation.digitValue := by
  simp only [digitsOf, map_map]
  refine map_congr_left fun x _ => ?_
  simp only [Function.comp_apply, LawfulToken.token?_toValue, Option.map_some, Option.getD_some]

/-! ## Numerals -/

section

variable {C D τ σ υ ρ : Type}
  [Input C τ σ] [InputView C τ σ] [Token τ] [ToValue τ] [ToValue σ]
  [Input D υ ρ] [InputView D υ ρ] [Token υ] [ToValue υ] [ToValue ρ]
  {A : Alignment C D}

/-- The values of corresponding tokens whose characters pass a test. -/
def Alignment.Tokens (A : Alignment C D) (test : Char → Bool) (v w : Value) : Prop :=
  ∃ x y, A.token x y ∧ test (Token.toChar x) ∧ v = ToValue.toValue x ∧ w = ToValue.toValue y

/-- The lists of the values of corresponding digits. -/
def Alignment.Digits (A : Alignment C D) (v w : Value) : Prop :=
  ∃ s t, Forall₂ A.token s t ∧ (∀ x ∈ s, (Token.toChar x).isDigit) ∧
    v = .list (s.map ToValue.toValue) ∧ w = .list (t.map ToValue.toValue)

/-- Two pairs of one sign and digits in relation. -/
def Alignment.Signed (A : Alignment C D) (v w : Value) : Prop :=
  ∃ sign ds ds', A.Digits ds ds' ∧ v = .pair sign ds ∧ w = .pair sign ds'

namespace Alignment

variable {v w : Value} {test : Char → Bool}

theorem map_toChar_eq {s : List τ} {t : List υ} (h : Forall₂ A.token s t) :
    s.map Token.toChar = t.map Token.toChar := by
  induction h with
  | nil => rfl
  | cons hToken _ ih => rw [map_cons, map_cons, A.toChar hToken, ih]

theorem digits_of_forall₂ {vs ws : List Value} (h : Forall₂ (A.Tokens Char.isDigit) vs ws) :
    A.Digits (.list vs) (.list ws) := by
  induction h with
  | nil => exact ⟨[], [], .nil, by simp, rfl, rfl⟩
  | cons hHead _ ih =>
    obtain ⟨x, y, hToken, hDigit, rfl, rfl⟩ := hHead
    obtain ⟨s, t, hTokens, hDigits, hv, hw⟩ := ih
    cases hv
    cases hw
    exact ⟨x :: s, y :: t, .cons hToken hTokens, forall_mem_cons.mpr ⟨hDigit, hDigits⟩, rfl, rfl⟩

variable [LawfulToken τ] [LawfulToken υ]

theorem Tokens.token?_eq (h : A.Tokens test v w) : v.token? = w.token? := by
  obtain ⟨x, y, hToken, -, rfl, rfl⟩ := h
  rw [LawfulToken.token?_toValue, LawfulToken.token?_toValue, A.toChar hToken]

namespace Digits

theorem digitsOf_eq (h : A.Digits v w) : Grammar.digitsOf v = Grammar.digitsOf w := by
  obtain ⟨s, t, hTokens, -, rfl, rfl⟩ := h
  rw [Grammar.digitsOf_toValue, Grammar.digitsOf_toValue, map_toChar_eq hTokens]

theorem textOf_eq (h : A.Digits v w) : Grammar.textOf v = Grammar.textOf w := by
  obtain ⟨s, t, hTokens, hDigits, rfl, rfl⟩ := h
  have hDigits' : ∀ y ∈ t, (Token.toChar y).isDigit := by
    intro y hy
    have hChar : Token.toChar y ∈ s.map Token.toChar := by
      rw [map_toChar_eq hTokens]
      exact mem_map_of_mem hy
    obtain ⟨x, hx, hxy⟩ := mem_map.mp hChar
    rw [← hxy]
    exact hDigits x hx
  rw [LawfulToken.textOf_digits hDigits, LawfulToken.textOf_digits hDigits',
    map_toChar_eq hTokens]

end Digits

namespace Signed

theorem toInteger?_eq (h : A.Signed v w) : Grammar.toInteger? v = Grammar.toInteger? w := by
  obtain ⟨sign, ds, ds', hDigits, rfl, rfl⟩ := h
  unfold Grammar.toInteger?
  split
  · rename_i negative ds hPair
    cases hPair
    simp only [hDigits.digitsOf_eq]
  · rename_i hNone
    cases sign <;> first | rfl | exact absurd rfl (hNone _ _)

theorem toNumber_eq (h : A.Signed v w) (x : Value) :
    Grammar.toNumber (.pair x v) = Grammar.toNumber (.pair x w) := by
  obtain ⟨sign, ds, ds', hDigits, rfl, rfl⟩ := h
  unfold Grammar.toNumber
  split
  · rename_i hPair
    cases hPair
    simp only [hDigits.digitsOf_eq]
  · rename_i hNone
    split
    · rename_i hPair
      cases hPair
      exact absurd rfl (hNone _ _ _ _ _)
    · rfl

end Signed

end Alignment

namespace Coupling.Simulates

open Grammar

variable {K : Coupling A} {call : Reference → Parser C Value}
  {call' : Reference → Parser D Value} {a b : Address}

/-- Two grammars with equal values, one after the other. -/
theorem pair {g h : Grammar}
    (hg : ∀ a b, K.Simulates Eq (g.parser call a) (g.parser call' b))
    (hh : ∀ a b, K.Simulates Eq (h.parser call a) (h.parser call' b)) (a b : Address) :
    K.Simulates Eq ((Grammar.both g h).parser call a) ((Grammar.both g h).parser call' b) :=
  ((hg _ _).both (hh _ _)).map fun ⟨hFirst, hSecond⟩ => by rw [hFirst, hSecond]

variable [LawfulInput C] [LawfulInput D]

theorem labelled (name : String) (test : Char → Bool) :
    K.Simulates (A.Tokens test) ((labelled name test).parser call a)
      ((labelled name test).parser call' b) :=
  ((satisfy (A.tests_toChar test)).map fun h => ⟨_, _, h.1, h.2, rfl, rfl⟩).label name

theorem digits : K.Simulates A.Digits (digits.parser call a) (digits.parser call' b) :=
  (labelled (a := a) (b := b) "digit" Char.isDigit).many1.map Alignment.digits_of_forall₂

variable [LawfulToken τ] [LawfulToken υ]

theorem sign : K.Simulates Eq (sign.parser call a) (sign.parser call' b) := by
  refine .option (.map (labelled _ _) ?_) rfl
  intro v w hToken
  unfold isMinus
  rw [hToken.token?_eq]

theorem signed : K.Simulates A.Signed ((Grammar.both Grammar.sign Grammar.digits).parser call a)
    ((Grammar.both Grammar.sign Grammar.digits).parser call' b) :=
  (sign.both digits).map fun ⟨hSign, hDigits⟩ => ⟨_, _, _, hDigits, rfl, by rw [hSign]⟩

theorem digitText : K.Simulates Eq (digitText.parser call a) (digitText.parser call' b) :=
  digits.map Alignment.Digits.textOf_eq

theorem fraction : K.Simulates Eq (fraction.parser call a) (fraction.parser call' b) :=
  (labelled _ _).marked digitText rfl

theorem exponent : K.Simulates A.Signed (exponent.parser call a) (exponent.parser call' b) :=
  (labelled _ _).marked signed ⟨_, _, _, ⟨[], [], .nil, by simp, rfl, rfl⟩, rfl, rfl⟩

theorem integer : K.Simulates Eq (integer.parser call a) (integer.parser call' b) := by
  refine (signed.lexeme _).convert _ _ ?_
  intro v w hSigned
  rw [hSigned.toInteger?_eq]
  cases toInteger? w with
  | none => exact .none
  | some n => exact .some rfl

theorem number : K.Simulates Eq (number.parser call a) (number.parser call' b) := by
  have hMantissa : K.Simulates Eq
      ((Grammar.both (.both Grammar.sign Grammar.digitText) Grammar.fraction).parser call
        (a.turn .left))
      ((Grammar.both (.both Grammar.sign Grammar.digitText) Grammar.fraction).parser call'
        (b.turn .left)) :=
    pair (pair (fun _ _ => sign) fun _ _ => digitText) (fun _ _ => fraction) _ _
  refine .lexeme (.map (W := Eq) (V := fun v w => toNumber v = toNumber w) (.map
    (hMantissa.both exponent) ?_) id) _
  rintro ⟨x, v⟩ ⟨y, w⟩ ⟨hEq, hSigned⟩
  cases hEq
  exact hSigned.toNumber_eq _

end Coupling.Simulates

end

end Packrat

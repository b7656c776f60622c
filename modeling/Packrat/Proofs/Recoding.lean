import Packrat.Proofs.Lockstep

/-!
# Sources with recoded tokens

A source and another one with the tokens of the first one written in another way.
Cursors with as many tokens before them stand at the same place.

* `Recoding`: a way to write tokens that keeps what parsers see of them;
* `Alignment.recoded`: the cursors of one memory and those of the recoded one;
* `Alignment.recoded_matched`: they determine each other;
* `SamePlace`, `SameResult`: what corresponds in such cursors, and in the results of
  runs from them, with `Alignment.Outcome.sameResult`;
* `Recoding.id`: the tokens as they are, which leads back to the same cursor.
-/

namespace Packrat

open Input List

variable {C D τ σ υ ρ : Type}
  [Input C τ σ] [InputView C τ σ] [Token τ] [ToValue τ] [ToValue σ]
  [Input D υ ρ] [InputView D υ ρ] [Token υ] [ToValue υ] [ToValue ρ]

/-- A way to write the tokens of one kind of sources as those of another kind: the
character of a token and the ends of lines stay, and the values of tokens and slices
stay the same up to `V`. -/
structure Recoding (C D : Type) {τ σ υ ρ : Type} [Input C τ σ] [InputView C τ σ] [Token τ]
    [ToValue τ] [ToValue σ] [Input D υ ρ] [InputView D υ ρ] [Token υ] [ToValue υ] [ToValue ρ]
    (f : τ → υ) (V : Value → Value → Prop) : Prop where
  injective : ∀ {x y}, f x = f y → x = y
  toChar : ∀ x, Token.toChar (f x) = Token.toChar x
  isNewline : ∀ x, Token.isNewline (f x) = Token.isNewline x
  toValue : ∀ x, V (ToValue.toValue x) (ToValue.toValue (f x))
  slice : ∀ s, V (ToValue.toValue (sliceOf C s)) (ToValue.toValue (sliceOf D (s.map f)))
  congruence : Value.Congruence V

namespace Recoding

variable {f : τ → υ} {V : Value → Value → Prop}

theorem id [LawfulInput C] : Recoding C C (fun x => x) Eq where
  injective h := h
  toChar _ := rfl
  isNewline _ := rfl
  toValue _ := rfl
  slice s := by rw [map_id']
  congruence := .eq

end Recoding

variable {f : τ → υ} {V : Value → Value → Prop} {memory : Nat → List τ} {c : C} {d : D}

namespace Alignment

/-- Cursors of one memory, and those in a source of recoded tokens in the buffer of
the same number. -/
def recoded (h : Recoding C D f V) (memory : Nat → List τ) : Alignment C D where
  cursor c d := InMemory memory c ∧ (source d).buffer = (source c).buffer ∧
    before d = (before c).map f ∧ InputView.after d = (InputView.after c).map f
  token x y := y = f x
  value := V
  expected := Eq
  after := by
    rintro c d ⟨-, -, -, hAfter⟩
    rw [hAfter]
    exact forall₂_map_right_iff.mpr (forall₂_same.mpr fun _ _ => rfl)
  reads := by
    rintro c c' d d' s t ⟨hMemory, hBuffer, hBefore, hAfter⟩ hReads hReads' hLength
    rw [hReads.after_eq, hReads'.after_eq, map_append] at hAfter
    obtain ⟨rfl, hAfter'⟩ := append_inj hAfter (by rw [length_map, hLength])
    refine ⟨hReads.inMemory hMemory, ?_, ?_, hAfter'⟩
    · rw [hReads.buffer_eq, hReads'.buffer_eq, hBuffer]
    · rw [hReads.before_eq, hReads'.before_eq, hBefore, map_append]
  toChar := by rintro x _ rfl; exact (h.toChar x).symm
  toValue := by rintro x _ rfl; exact h.toValue x
  slice := by
    intro s t hTokens
    have hEq : t = s.map f := by
      induction hTokens with
      | nil => rfl
      | cons hToken _ ih => rw [map_cons, hToken, ih]
    rw [hEq]
    exact h.slice s
  congruence := h.congruence
  labels := .eq

theorem recoded_matched [LawfulInput C] [LawfulInput D] (h : Recoding C D f V)
    (memory : Nat → List τ) :
    (recoded h memory).Matched memory fun buffer => (memory buffer).map f where
  left hCursor := hCursor.1
  right := by
    rintro c d ⟨hMemory, hBuffer, hBefore, hAfter⟩
    unfold InMemory
    rw [hBuffer, hBefore, hAfter, ← map_append]
    exact IsPrefix.map f hMemory
  functional := by
    rintro c d d' ⟨-, hBuffer, hBefore, hAfter⟩ ⟨-, hBuffer', hBefore', hAfter'⟩
    exact LawfulInput.eq_of_view (hBuffer.trans hBuffer'.symm) (hBefore.trans hBefore'.symm)
      (hAfter.trans hAfter'.symm)
  injective := by
    rintro c c' d ⟨-, hBuffer, hBefore, hAfter⟩ ⟨-, hBuffer', hBefore', hAfter'⟩
    have hMap : Function.Injective (map f) := map_injective_iff.mpr fun _ _ => h.injective
    exact LawfulInput.eq_of_view (hBuffer.symm.trans hBuffer')
      (hMap (hBefore.symm.trans hBefore')) (hMap (hAfter.symm.trans hAfter'))
  expected hExpected := hExpected

section

variable [LawfulInput C] {c' : C}

theorem recoded_id_iff :
    (recoded (Recoding.id (C := C)) memory).cursor c c' ↔ InMemory memory c ∧ c = c' := by
  constructor
  · rintro ⟨hMemory, hBuffer, hBefore, hAfter⟩
    rw [map_id'] at hBefore hAfter
    exact ⟨hMemory, LawfulInput.eq_of_view hBuffer.symm hBefore.symm hAfter.symm⟩
  · rintro ⟨hMemory, rfl⟩
    exact ⟨hMemory, rfl, (map_id' _).symm, (map_id' _).symm⟩

end

end Alignment

/-! ## Results -/

/-- Two cursors in the same place of a source and of the recoded one: the tokens on
both sides correspond, and so the count and the location are the same, while the
positions are in the relation `pos`. -/
structure SamePlace (f : τ → υ) (pos : Nat → Nat → Prop) (c : C) (d : D) : Prop where
  buffer_eq : (source d).buffer = (source c).buffer
  before_eq : before d = (before c).map f
  after_eq : after d = (after c).map f
  count_eq : count d = count c
  location_eq : location d = location c
  position : pos (position c) (position d)

/-- Two results that correspond: both are values in the relation `W` with cursors in
the same place, or both are failures in the same place with the same labels and the
same words. -/
inductive SameResult (f : τ → υ) (pos : Nat → Nat → Prop) (W : Value → Value → Prop) :
    Result C Value → Result D Value → Prop
  | ok {v w c d} (hValue : W v w) (hPlace : SamePlace f pos c d) :
    SameResult f pos W (.ok (v, c)) (.ok (w, d))
  | error {e e'} (hPlace : SamePlace f pos e.remaining e'.remaining)
    (hPosition : pos e.position e'.position) (hExpected : e.expected = e'.expected)
    (hMessage : e.message = e'.message) : SameResult f pos W (.error e) (.error e')

namespace Alignment

variable [LawfulInput C] [LawfulInput D] {h : Recoding C D f V} {pos : Nat → Nat → Prop}

theorem recoded_samePlace (hCursor : (recoded h memory).cursor c d)
    (hPos : pos (position c) (position d)) : SamePlace f pos c d := by
  obtain ⟨-, hBuffer, hBefore, hAfter⟩ := hCursor
  refine ⟨hBuffer, hBefore, hAfter, ?_, ?_, hPos⟩
  · rw [LawfulInput.count_eq, LawfulInput.count_eq, hAfter, length_map]
  · rw [LawfulInput.location_eq, LawfulInput.location_eq, hBefore]
    unfold Location.after
    rw [countP_map, ← map_reverse, takeWhile_map, length_map]
    have hNewline : Token.isNewline ∘ f = Token.isNewline := funext h.isNewline
    have hOther : (fun token => !Token.isNewline token) ∘ f =
        fun token => !Token.isNewline token := funext fun x => congrArg _ (h.isNewline x)
    rw [hNewline, hOther]

theorem Outcome.sameResult {W : Value → Value → Prop} {r : Result C Value}
    {r' : Result D Value} (hOut : (recoded h memory).Outcome W c d r r')
    (hPos : ∀ {p q}, (recoded h memory).Positions c d p q → pos p q) :
    SameResult f pos W r r' := by
  cases hOut with
  | ok hValue hReaches =>
    exact .ok hValue (recoded_samePlace hReaches.cursor (hPos hReaches.positions))
  | error hFailure =>
    have hPosition := hPos hFailure.reaches.positions
    refine .error (recoded_samePlace hFailure.reaches.cursor hPosition) ?_ hFailure.expected ?_
    · rw [hFailure.left_position, hFailure.right_position]
      exact hPosition
    · exact congrArg Reason.message hFailure.reason

end Alignment

end Packrat

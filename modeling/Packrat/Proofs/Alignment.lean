import Mathlib.Data.List.Forall2
import Packrat.Error
import Packrat.Input.Lawful
import Packrat.Value.Operation

/-!
# Two kinds of sources side by side

To compare runs over two kinds of sources, one says which cursors stand at the
same place, which tokens and values are taken for the same, and which labels.
This module says what it then means for two results to correspond, and what the
operations on cursors do to cursors that stand at the same place.

* `Value.Congruence`: a relation of values that all ways to build values keep;
* `KeepsLabels`: a relation of lists of labels that joining them keeps;
* `Alignment`: the relations between two kinds of sources, with their laws;
* `Alignment.Reaches`: two cursors at one place move on to one place;
* `Alignment.Outcome`: two results, each of a parser started at one place,
  correspond;
* `Alignment.uncons_cases`, `Alignment.splitAt_cases`: reading a token, or some,
  leads from one place to one place.
-/

namespace Packrat

open Input List

/-- A relation of values that is kept by all ways to build values. -/
structure Value.Congruence (V : Value → Value → Prop) : Prop where
  refl : ∀ v, V v v
  symm : ∀ {v w}, V v w → V w v
  pair : ∀ {v w x y}, V v w → V x y → V (.pair v x) (.pair w y)
  some : ∀ {v w}, V v w → V (.some v) (.some w)
  list : ∀ {vs ws}, Forall₂ V vs ws → V (.list vs) (.list ws)
  call : ∀ {f g x y}, V f g → V x y → V (f.call x) (g.call y)

namespace Value.Congruence

variable {V : Value → Value → Prop}

theorem refl_option (h : Congruence V) : ∀ x : Option Value, Option.Rel V x x
  | .none => .none
  | .some v => .some (h.refl v)

theorem optional (h : Congruence V) {x y : Option Value} (hRel : Option.Rel V x y) :
    V ((x.map Value.some).getD .none) ((y.map Value.some).getD .none) := by
  cases hRel with
  | some hValue => exact h.some hValue
  | none => exact h.refl _

theorem eq : Congruence Eq where
  refl _ := rfl
  symm := Eq.symm
  pair := by rintro v _ x _ rfl rfl; rfl
  some := by rintro v _ rfl; rfl
  list h := by rw [forall₂_eq_eq_eq] at h; rw [h]
  call := by rintro f _ x _ rfl rfl; rfl

end Value.Congruence

/-- A relation of lists of labels that is kept where lists are joined. -/
structure KeepsLabels (R : List String → List String → Prop) : Prop where
  refl : ∀ l, R l l
  append : ∀ {k l m n}, R k l → R m n → R (k ++ m) (l ++ n)

theorem KeepsLabels.eq : KeepsLabels Eq where
  refl _ := rfl
  append := by rintro k _ m _ rfl rfl; rfl

/-- Relations between two kinds of sources. Cursors in relation stand at the
same place: what is read from them corresponds token by token, and as many
tokens lead to cursors in relation again. -/
structure Alignment (C D : Type) {τ σ υ ρ : Type} [Input C τ σ] [InputView C τ σ] [Token τ]
    [ToValue τ] [ToValue σ] [Input D υ ρ] [InputView D υ ρ] [Token υ] [ToValue υ]
    [ToValue ρ] where
  cursor : C → D → Prop
  token : τ → υ → Prop
  value : Value → Value → Prop
  expected : List String → List String → Prop
  after : ∀ {c d}, cursor c d → Forall₂ token (after c) (after d)
  reads : ∀ {c c' d d' s t}, cursor c d → Reads c s c' → Reads d t d' → s.length = t.length →
    cursor c' d'
  toChar : ∀ {x y}, token x y → Token.toChar x = Token.toChar y
  toValue : ∀ {x y}, token x y → value (ToValue.toValue x) (ToValue.toValue y)
  slice : ∀ {s t}, Forall₂ token s t →
    value (ToValue.toValue (sliceOf C s)) (ToValue.toValue (sliceOf D t))
  congruence : Value.Congruence value
  labels : KeepsLabels expected

namespace Alignment

variable {C D τ σ υ ρ α β α' β' : Type}
  [Input C τ σ] [InputView C τ σ] [Token τ] [ToValue τ] [ToValue σ]
  [Input D υ ρ] [InputView D υ ρ] [Token υ] [ToValue υ] [ToValue ρ]
  (A : Alignment C D)

/-- Two cursors move on to two cursors in relation. -/
structure Reaches (c : C) (d : D) (c' : C) (d' : D) : Prop where
  cursor : A.cursor c' d'
  left : ∃ tokens, Reads c tokens c'
  right : ∃ tokens, Reads d tokens d'

/-- Two failures that are reported at cursors in relation, for one reason. -/
structure Failure (c : C) (d : D) (e : ParseError C) (f : ParseError D) : Prop where
  reaches : A.Reaches c d e.remaining f.remaining
  left_position : e.position = position e.remaining
  right_position : f.position = position f.remaining
  expected : A.expected e.expected f.expected
  reason : e.reason = f.reason

/-- Two results, of parsers started at `c` and `d`, that correspond: both are
values in the relation `V`, or both are failures. -/
inductive Outcome (V : α → β → Prop) (c : C) (d : D) : Result C α → Result D β → Prop
  | ok {v w c' d'} (hValue : V v w) (hReaches : A.Reaches c d c' d') :
    Outcome V c d (.ok (v, c')) (.ok (w, d'))
  | error {e f} (hFailure : A.Failure c d e f) : Outcome V c d (.error e) (.error f)

variable {A} {c c' c'' : C} {d d' d'' : D} {e e' : ParseError C} {f f' : ParseError D}
  {V : α → β → Prop} {W : α' → β' → Prop} {r : Result C α} {r' : Result D β}

/-! ## Cursors -/

namespace Reaches

theorem refl (h : A.cursor c d) : A.Reaches c d c d :=
  ⟨h, ⟨[], .refl c⟩, ⟨[], .refl d⟩⟩

theorem trans (h : A.Reaches c d c' d') (k : A.Reaches c' d' c'' d'') :
    A.Reaches c d c'' d'' := by
  obtain ⟨s, hs⟩ := h.left
  obtain ⟨t, ht⟩ := h.right
  obtain ⟨s', hs'⟩ := k.left
  obtain ⟨t', ht'⟩ := k.right
  exact ⟨k.cursor, ⟨s ++ s', hs.trans hs'⟩, ⟨t ++ t', ht.trans ht'⟩⟩

/-- Cursors in relation are reached by reading as many tokens on either side. -/
theorem length_eq (h : A.Reaches c d c' d') (hCursor : A.cursor c d) {s : List τ} {t : List υ}
    (hs : Reads c s c') (ht : Reads d t d') : s.length = t.length := by
  have hFrom := (A.after hCursor).length_eq
  have hTo := (A.after h.cursor).length_eq
  rw [hs.after_eq, ht.after_eq, length_append, length_append] at hFrom
  omega

variable [LawfulInput D]

/-- One side moves on if and only if the other one does. -/
theorem position_lt_iff [LawfulInput C] (h : A.Reaches c d c' d') (hCursor : A.cursor c d) :
    position c < position c' ↔ position d < position d' := by
  obtain ⟨s, hs⟩ := h.left
  obtain ⟨t, ht⟩ := h.right
  have hLength := h.length_eq hCursor hs ht
  rw [hs.position_lt_iff, ht.position_lt_iff, ← length_pos_iff, ← length_pos_iff, hLength]

/-- What is read when one side moves on is taken off what is left. -/
theorem left_lt (h : A.Reaches c d c' d') (hLt : position d < position d') :
    Input.left d' < Input.left d := by
  obtain ⟨t, ht⟩ := h.right
  have hPosition := ht.position_eq
  have hLeft := ht.left_eq
  omega

end Reaches

section

variable [LawfulInput C] [LawfulInput D]

/-- Where one side reads a token the other one reads a token in relation to it,
and where one side ends the other one ends. -/
theorem uncons_cases (hCursor : A.cursor c d) :
    (uncons c = none ∧ uncons d = none) ∨
      ∃ x y c' d', uncons c = some (x, c') ∧ uncons d = some (y, d') ∧ A.token x y ∧
        A.Reaches c d c' d' := by
  have hAfter := A.after hCursor
  cases hc : InputView.after c with
  | nil =>
    rw [hc, forall₂_nil_left_iff] at hAfter
    exact .inl ⟨LawfulInput.uncons_eq_none hc, LawfulInput.uncons_eq_none hAfter⟩
  | cons x s =>
    rw [hc, forall₂_cons_left_iff] at hAfter
    obtain ⟨y, t, hToken, -, hd⟩ := hAfter
    obtain ⟨c', hUncons, hReads⟩ := LawfulInput.uncons_eq_some hc
    obtain ⟨d', hUncons', hReads'⟩ := LawfulInput.uncons_eq_some hd
    exact .inr ⟨x, y, c', d', hUncons, hUncons', hToken,
      A.reads hCursor hReads hReads' rfl, ⟨_, hReads⟩, ⟨_, hReads'⟩⟩

/-- Where one side has `n` tokens left the other one has, and they correspond. -/
theorem splitAt_cases (hCursor : A.cursor c d) (n : Nat) :
    (Input.splitAt n c = none ∧ Input.splitAt n d = none) ∨
      ∃ s t c' d', Input.splitAt n c = some (sliceOf C s, c') ∧
        Input.splitAt n d = some (sliceOf D t, d') ∧ Forall₂ A.token s t ∧
        A.Reaches c d c' d' := by
  have hAfter := A.after hCursor
  have hLength := hAfter.length_eq
  rcases Nat.lt_or_ge (InputView.after c).length n with hLt | hLe
  · exact .inl ⟨LawfulInput.splitAt_eq_none hLt, LawfulInput.splitAt_eq_none (hLength ▸ hLt)⟩
  · obtain ⟨c', hSplit, hReads⟩ := LawfulInput.splitAt_eq_some hLe
    obtain ⟨d', hSplit', hReads'⟩ := LawfulInput.splitAt_eq_some (hLength ▸ hLe)
    have hTake := forall₂_take n hAfter
    exact .inr ⟨_, _, c', d', hSplit, hSplit', hTake,
      A.reads hCursor hReads hReads' hTake.length_eq, ⟨_, hReads⟩, ⟨_, hReads'⟩⟩

end

/-! ## Failures -/

namespace Failure

theorem new (hCursor : A.cursor c d) (reason : Reason) :
    A.Failure c d (.new c reason) (.new d reason) :=
  ⟨.refl hCursor, rfl, rfl, A.labels.refl [], rfl⟩

theorem expecting (h : A.Failure c d e f) (label : String) :
    A.Failure c d (e.expecting label) (f.expecting label) :=
  { h with expected := A.labels.append h.expected (A.labels.refl [label]) }

theorem moveTo (h : A.Failure c d e f) (hCursor : A.cursor c d) :
    A.Failure c d (e.moveTo c) (f.moveTo d) :=
  { h with reaches := .refl hCursor, left_position := rfl, right_position := rfl }

theorem merge (h : A.Failure c d e f) (k : A.Failure c d e' f') (hCursor : A.cursor c d) :
    A.Failure c d (e.merge e' c) (f.merge f' d) :=
  ⟨.refl hCursor, rfl, rfl, A.labels.append h.expected k.expected, k.reason⟩

theorem trans (h : A.Reaches c d c' d') (k : A.Failure c' d' e f) : A.Failure c d e f :=
  { k with reaches := h.trans k.reaches }

end Failure

/-! ## Results -/

namespace Outcome

theorem trans (h : A.Reaches c d c' d') (k : A.Outcome V c' d' r r') : A.Outcome V c d r r' := by
  cases k with
  | ok hValue hReaches => exact .ok hValue (h.trans hReaches)
  | error hFailure => exact .error (.trans h hFailure)

theorem mono {V' : α → β → Prop} (hV : ∀ v w, V v w → V' v w) (h : A.Outcome V c d r r') :
    A.Outcome V' c d r r' := by
  cases h with
  | ok hValue hReaches => exact .ok (hV _ _ hValue) hReaches
  | error hFailure => exact .error hFailure

end Outcome

end Alignment

end Packrat

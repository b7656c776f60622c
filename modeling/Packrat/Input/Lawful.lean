import Packrat.Input
import Packrat.Token

/-!
# The laws of cursors

A cursor is seen as two lists of tokens, those before it and those after it.
Every operation is determined by them, and a position is the space that the
tokens before it take up.

- `InputView`: the two lists;
- `Reads`: one cursor is reached from another one by reading some tokens;
- `LawfulInput`: what the operations do to the two lists;
- `Reads.position_eq`, `Reads.eq_of_length_eq`: reading some tokens adds their
  widths to the position, and their number determines the cursor reached.
-/

namespace Packrat

open Input

/-- The view of cursors as lists of tokens. -/
class InputView (C : Type) (τ σ : outParam Type) where
  /-- The tokens before a cursor. -/
  before : C → List τ
  /-- The tokens after a cursor. -/
  after : C → List τ
  /-- The units of a position that a token takes up. -/
  width : τ → Nat
  /-- The slice made of some tokens. -/
  slice : List τ → σ

export InputView (before after)

/-- The units of a position that some tokens take up. -/
def widthOf (C : Type) {τ σ : Type} [InputView C τ σ] : List τ → Nat
  | [] => 0
  | token :: tokens => InputView.width (C := C) token + widthOf C tokens

/-- The slice of cursors of type `C` that is made of some tokens. -/
def sliceOf (C : Type) {τ σ : Type} [InputView C τ σ] (tokens : List τ) : σ :=
  InputView.slice (C := C) tokens

/-- The second cursor is reached from the first one by reading some tokens. -/
structure Reads {C τ σ : Type} [Input C τ σ] [InputView C τ σ] (c : C) (tokens : List τ)
    (d : C) : Prop where
  buffer_eq : (source d).buffer = (source c).buffer
  before_eq : before d = before c ++ tokens
  after_eq : after c = tokens ++ after d

/-- The laws of cursors. -/
class LawfulInput (C : Type) {τ σ : outParam Type} [Input C τ σ] [InputView C τ σ] [Token τ] :
    Prop where
  width_pos : ∀ token : τ, 0 < InputView.width (C := C) token
  position_eq : ∀ c : C, position c = widthOf C (before c)
  size_eq : ∀ c : C, (source c).size = widthOf C (before c ++ after c)
  /-- A cursor is determined by its buffer and the tokens on both sides. -/
  eq_of_view : ∀ {c d : C}, (source c).buffer = (source d).buffer → before c = before d →
    after c = after d → c = d
  uncons_eq_none : ∀ {c : C}, after c = [] → uncons c = none
  uncons_eq_some : ∀ {c : C} {token tokens}, after c = token :: tokens →
    ∃ d, uncons c = some (token, d) ∧ Reads c [token] d
  splitAt_eq_none : ∀ {c : C} {n}, (after c).length < n → splitAt n c = none
  splitAt_eq_some : ∀ {c : C} {n}, n ≤ (after c).length →
    ∃ d, splitAt n c = some (sliceOf C ((after c).take n), d) ∧ Reads c ((after c).take n) d
  sliceTo_eq : ∀ {c d : C} {tokens}, Reads c tokens d → sliceTo c d = sliceOf C tokens
  sliceTo_behind : ∀ {c d : C} {tokens}, Reads d tokens c → sliceTo c d = sliceOf C []
  rest_eq : ∀ c : C, rest c = sliceOf C (after c)
  count_eq : ∀ c : C, count c = (after c).length
  location_eq : ∀ c : C, location c = Location.after Token.isNewline (before c)

section

variable {C τ σ : Type} [InputView C τ σ]

@[simp]
theorem widthOf_nil : widthOf C ([] : List τ) = 0 := rfl

@[simp]
theorem widthOf_cons (token : τ) (tokens : List τ) :
    widthOf C (token :: tokens) = InputView.width (C := C) token + widthOf C tokens := rfl

@[simp]
theorem widthOf_append (s t : List τ) : widthOf C (s ++ t) = widthOf C s + widthOf C t := by
  induction s with
  | nil => simp
  | cons token s ih =>
    rw [List.cons_append, widthOf_cons, widthOf_cons, ih, Nat.add_assoc]

variable [Input C τ σ]

namespace Reads

theorem refl (c : C) : Reads c [] c :=
  ⟨rfl, (List.append_nil _).symm, rfl⟩

theorem trans {c d e : C} {s t : List τ} (h : Reads c s d) (k : Reads d t e) :
    Reads c (s ++ t) e where
  buffer_eq := k.buffer_eq.trans h.buffer_eq
  before_eq := by rw [k.before_eq, h.before_eq, List.append_assoc]
  after_eq := by rw [h.after_eq, k.after_eq, List.append_assoc]

theorem exists_trans {c d e : C} {t : List τ} (h : ∃ s, Reads c s d) (k : Reads d t e) :
    ∃ s, Reads c s e :=
  h.elim fun s hReads => ⟨s ++ t, hReads.trans k⟩

end Reads

end

section

variable {C τ σ : Type} [Input C τ σ] [InputView C τ σ] [Token τ] [LawfulInput C]

open LawfulInput

/-- A token takes up at least one unit. -/
theorem length_le_widthOf (tokens : List τ) : tokens.length ≤ widthOf C tokens := by
  induction tokens with
  | nil => exact Nat.le_refl 0
  | cons token tokens ih =>
    have := width_pos (C := C) token
    rw [List.length_cons, widthOf_cons]
    omega

/-- What is left of the source is the space of the tokens after the cursor. -/
theorem left_eq (c : C) : left c = widthOf C (after c) := by
  rw [left, size_eq, position_eq, widthOf_append]
  omega

theorem position_le_size (c : C) : position c ≤ (source c).size := by
  rw [position_eq, size_eq, widthOf_append]
  exact Nat.le_add_right _ _

namespace Reads

variable {c d e : C} {s t tokens : List τ}

theorem source_eq (h : Reads c tokens d) : source d = source c := by
  have hSize : (source d).size = (source c).size := by
    rw [size_eq, size_eq, h.before_eq, h.after_eq, List.append_assoc]
  have hBuffer := h.buffer_eq
  cases hd : source d
  cases hc : source c
  simp_all

theorem position_eq (h : Reads c tokens d) : position d = position c + widthOf C tokens := by
  rw [LawfulInput.position_eq, LawfulInput.position_eq, h.before_eq, widthOf_append]

theorem position_le (h : Reads c tokens d) : position c ≤ position d := by
  rw [h.position_eq]
  exact Nat.le_add_right _ _

theorem count_eq (h : Reads c tokens d) : count c = tokens.length + count d := by
  rw [LawfulInput.count_eq, LawfulInput.count_eq, h.after_eq, List.length_append]

theorem left_eq (h : Reads c tokens d) : left c = widthOf C tokens + left d := by
  rw [Packrat.left_eq, Packrat.left_eq, h.after_eq, widthOf_append]

/-- The tokens read determine the cursor that is reached. -/
theorem eq (h : Reads c tokens d) (k : Reads c tokens e) : d = e :=
  eq_of_view (h.buffer_eq.trans k.buffer_eq.symm) (h.before_eq.trans k.before_eq.symm)
    (List.append_cancel_left (h.after_eq.symm.trans k.after_eq))

/-- The number of tokens read determines the cursor that is reached. -/
theorem eq_of_length_eq (h : Reads c s d) (k : Reads c t e) (hLength : s.length = t.length) :
    d = e := by
  obtain ⟨rfl, -⟩ := List.append_inj (h.after_eq.symm.trans k.after_eq) hLength
  exact h.eq k

/-- A cursor is moved on if and only if something is read. -/
theorem position_lt_iff (h : Reads c tokens d) : position c < position d ↔ tokens ≠ [] := by
  rw [h.position_eq, ← List.length_pos_iff]
  constructor
  · intro hLt
    cases tokens with
    | nil => simp at hLt
    | cons token tokens => exact Nat.succ_pos _
  · intro hPos
    have := length_le_widthOf (C := C) tokens
    omega

end Reads

/-- The next token is the first one after the cursor. -/
theorem reads_of_uncons {c d : C} {token : τ} (h : uncons c = some (token, d)) :
    Reads c [token] d := by
  cases hAfter : after c with
  | nil => rw [uncons_eq_none hAfter] at h; cases h
  | cons next tokens =>
    obtain ⟨e, hUncons, hReads⟩ := uncons_eq_some hAfter
    rw [hUncons] at h
    cases h
    exact hReads

/-- A cursor without a next token is at the end. -/
theorem after_eq_nil_of_uncons {c : C} (h : uncons c = none) : after c = [] := by
  cases hAfter : after c with
  | nil => rfl
  | cons next tokens =>
    obtain ⟨e, hUncons, -⟩ := uncons_eq_some hAfter
    rw [hUncons] at h
    cases h

end

end Packrat

import Packrat.Input.Text.Lemmas
import Packrat.Proofs.Pairs

/-!
# What stands before a cursor

Two cursors with the same tokens after them, in one source or in two. Parsers read
on from a cursor only, so the runs from the two are in lockstep, whatever stands
before the cursors. Their positions differ by a constant.

* `Alignment.ahead`: the cursors that are reached from the two by reading the same
  tokens, with `Alignment.ahead_matched`: they determine each other;
* `ShiftedResult`, `ShiftedReport`: results and reports that differ by a distance in
  all positions;
* `Session.parse_shifted`: a run after some tokens, and the same run without them.
-/

namespace Packrat

open Input List

section

variable {C τ σ : Type} [Input C τ σ] [InputView C τ σ] {c d : C} {k : Nat}

/-! ## Cursors -/

/-- Reading the same tokens from cursors with the same tokens after them leads to such
cursors again. -/
theorem Reads.after_eq_after {c' d' : C} {tokens : List τ} (hAfter : after c = after d)
    (hc : Reads c tokens c') (hd : Reads d tokens d') : after c' = after d' := by
  rw [hc.after_eq, hd.after_eq] at hAfter
  exact append_cancel_left hAfter

/-- The tokens between two cursors are determined by them. -/
theorem Reads.tokens_eq {c' : C} {s t : List τ} (hs : Reads c s c') (ht : Reads c t c') :
    s = t :=
  append_cancel_left (hs.before_eq.symm.trans ht.before_eq)

variable [Token τ] [ToValue τ] [ToValue σ]

/-- The cursors that are reached by reading the same tokens from two cursors with the
same tokens after them. -/
def Alignment.ahead [LawfulInput C] (hAfter : InputView.after c = InputView.after d) :
    Alignment C C :=
  { diagonal C with
    cursor := fun c' d' => ∃ tokens, Reads c tokens c' ∧ Reads d tokens d'
    after := by
      rintro c' d' ⟨tokens, hc, hd⟩
      exact forall₂_eq_eq_eq ▸ Reads.after_eq_after hAfter hc hd
    reads := by
      rintro c₁ c₂ d₁ d₂ s t ⟨tokens, hc, hd⟩ hs ht hLength
      have hEq := Reads.after_eq_after hAfter hc hd
      rw [hs.after_eq, ht.after_eq] at hEq
      obtain ⟨rfl, -⟩ := append_inj hEq hLength
      exact ⟨tokens ++ s, hc.trans hs, hd.trans ht⟩ }

theorem Alignment.ahead_cursor [LawfulInput C] (hAfter : InputView.after c = InputView.after d) :
    (ahead hAfter).cursor c d :=
  ⟨[], .refl c, .refl d⟩

theorem Alignment.ahead_matched [LawfulInput C] (hAfter : InputView.after c = InputView.after d) :
    (ahead hAfter).Matched (fun _ => before c ++ InputView.after c)
      fun _ => before d ++ InputView.after d where
  left := by
    rintro c' d' ⟨tokens, hc, -⟩
    exact hc.content_eq ▸ prefix_rfl
  right := by
    rintro c' d' ⟨tokens, -, hd⟩
    exact hd.content_eq ▸ prefix_rfl
  functional := by
    rintro c' d₁ d₂ ⟨s, hs, hd₁⟩ ⟨t, ht, hd₂⟩
    obtain rfl := hs.tokens_eq ht
    exact hd₁.eq hd₂
  injective := by
    rintro c₁ c₂ d' ⟨s, hc₁, hs⟩ ⟨t, hc₂, ht⟩
    obtain rfl := hs.tokens_eq ht
    exact hc₁.eq hc₂
  expected hExpected := hExpected

/-- What is reached from two cursors is as far apart as they are. -/
theorem Alignment.ahead_positions [LawfulInput C]
    {hAfter : InputView.after c = InputView.after d} {p q : Nat}
    (hPosition : position c = k + position d) (h : (ahead hAfter).Positions c d p q) :
    p = k + q := by
  obtain ⟨c', d', ⟨⟨tokens, hc, hd⟩, -, -⟩, rfl, rfl⟩ := h
  rw [hc.position_eq, hd.position_eq, hPosition, Nat.add_assoc]

/-! ## Results -/

/-- Two results that differ by a distance in all positions: both are the same value
with cursors before the same tokens, or both are failures before the same tokens
with the same labels and the same words. -/
inductive ShiftedResult (k : Nat) : Result C Value → Result C Value → Prop
  | ok {v c d} (hAfter : after c = after d) (hPosition : position c = k + position d) :
    ShiftedResult k (.ok (v, c)) (.ok (v, d))
  | error {e f} (hAfter : after e.remaining = after f.remaining)
    (hRemaining : position e.remaining = k + position f.remaining)
    (hPosition : e.position = k + f.position) (hExpected : e.expected = f.expected)
    (hMessage : e.message = f.message) : ShiftedResult k (.error e) (.error f)

/-- Two reports that differ by a distance in all positions, also in those that the
records mention, in the words of a failure too. -/
structure ShiftedReport (k : Nat) (x y : Report C) : Prop where
  result : ShiftedResult k x.result y.result
  trace : Forall₂ (Record.Shifted fun p q => p = k + q) x.trace y.trace

variable [LawfulInput C]

theorem Alignment.Reported.shifted {hAfter : InputView.after c = InputView.after d} {x y : Report C}
    (h : (ahead hAfter).Reported Eq c d x y) (hPosition : position c = k + position d) :
    ShiftedReport k x y where
  trace := h.trace.imp fun _ _ hShifted => hShifted.mono fun _ _ => ahead_positions hPosition
  result := by
    have hResult := h.result
    generalize x.result = r at hResult ⊢
    generalize y.result = r' at hResult ⊢
    cases hResult with
    | ok hValue hReaches =>
      obtain ⟨tokens, hc, hd⟩ := hReaches.cursor
      rw [hValue]
      exact .ok (Reads.after_eq_after hAfter hc hd) (ahead_positions hPosition hReaches.positions)
    | error hFailure =>
      obtain ⟨tokens, hc, hd⟩ := hFailure.reaches.cursor
      have hRemaining := ahead_positions hPosition hFailure.reaches.positions
      refine .error (Reads.after_eq_after hAfter hc hd) hRemaining ?_ hFailure.expected ?_
      · rw [hFailure.left_position, hFailure.right_position, hRemaining]
      · exact congrArg Reason.message hFailure.reason

/-! ## Runs -/

variable [LawfulToken τ]

/-- Nothing behind a cursor matters: where some tokens are put before a source, and the
cursor after them, a run returns if and only if it did without them, and its report
differs in the positions alone, by the space that the tokens take up. -/
theorem Session.parse_shifted (P : Program) (g : Grammar) {pre : List τ}
    (hBefore : before c = pre ++ before d) (hAfter : after c = after d) :
    Option.Rel (fun x y => ShiftedReport (widthOf C pre) x.1 y.1)
      (Session.parse { program := P } g c) (Session.parse { program := P } g d) := by
  have hPosition : position c = widthOf C pre + position d := by
    rw [LawfulInput.position_eq, LawfulInput.position_eq, hBefore, widthOf_append]
  have hRel := Paired.parse_rel (Alignment.ahead_matched hAfter) (.start P.alike_self)
    (Alignment.ahead_cursor hAfter) g.alike_self
  generalize Session.parse { program := P } g c = x at hRel ⊢
  generalize Session.parse { program := P } g d = y at hRel ⊢
  cases hRel with
  | none => exact .none
  | some hReported => exact .some (Alignment.Reported.shifted hReported hPosition)

end

/-- A word is read and stored after a letter of two bytes, and at the start of a text. -/
theorem Session.parse_shifted_text :
    ∃ (P : Program) (g : Grammar) (c : TextCursor),
      uncons (TextCursor.ofSource ⟨0, "éab"⟩) = some ('é', c) ∧
      (Session.parse { program := P } g c).isSome ∧
      Option.Rel (fun x y => ShiftedReport 2 x.1 y.1) (Session.parse { program := P } g c)
        (Session.parse { program := P } g (.ofSource ⟨1, "ab"⟩)) := by
  let P : Program := { shared := [("word", .memo (.takeWhile1 Char.isAlpha))] }
  let g : Grammar := .orElse (.seqLeft (.call (.shared "word")) (.literal "c"))
    (.call (.shared "word"))
  obtain ⟨c, hUncons, hSome⟩ : ∃ c, uncons (TextCursor.ofSource ⟨0, "éab"⟩) = some ('é', c) ∧
      (Session.parse { program := P } g c).isSome := ⟨_, rfl, rfl⟩
  have hReads := reads_of_uncons hUncons
  have hBefore : before c = ['é'] ++ before (TextCursor.ofSource ⟨1, "ab"⟩) := by
    rw [hReads.before_eq, TextCursor.before_ofSource, TextCursor.before_ofSource]
    rfl
  have hAfter : after c = after (TextCursor.ofSource ⟨1, "ab"⟩) := by
    refine @append_cancel_left _ ['é'] _ _ ?_
    rw [← hReads.after_eq, TextCursor.after_ofSource, TextCursor.after_ofSource]
    rfl
  exact ⟨P, g, c, hUncons, hSome, parse_shifted P g hBefore hAfter⟩

end Packrat

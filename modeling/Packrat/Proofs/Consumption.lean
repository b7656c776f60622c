import Packrat.Proofs.Sessions

/-!
# What runs consume

A run that succeeds has read some tokens from where it started, and its value
comes with the cursor after them. A run that fails reports its failure at a cursor
of the same source that is not behind the start. Stored results make no
difference, since they are what plain grammars yield.

* `Consumes`: a cursor stands after another one in its source, with what lies
  between the two;
* `ParseError.Ahead`: a failure is reported at its position, which is not behind a
  cursor;
* `Session.Reachable.consumption`: what every run of a session consumes, and where
  it fails.
-/

namespace Packrat

open Input List

section

variable {C τ σ : Type} [Input C τ σ] [InputView C τ σ]

/-- The second cursor is of the same source as the first one and not behind it:
the unread tokens of the first one are those between the two, which are the slice
from one to the other, followed by the unread ones of the second. -/
structure Consumes (c d : C) : Prop where
  sameSource : SameSource c d
  position_le : position c ≤ position d
  unread : ∃ tokens, after c = tokens ++ after d ∧ sliceTo c d = sliceOf C tokens ∧
    rest c = sliceOf C (tokens ++ after d) ∧ rest d = sliceOf C (after d)
  count_le : count d ≤ count c
  moved_iff : position c < position d ↔ count d < count c

/-- A failure is reported at a cursor of the source of the given one and not behind
it, and its position is that of the cursor. -/
structure ParseError.Ahead (c : C) (e : ParseError C) : Prop where
  sameSource : SameSource c e.remaining
  position_eq : e.position = Input.position e.remaining
  position_le : Input.position c ≤ e.position
  position_le_size : e.position ≤ (source c).size

variable [Token τ] [LawfulInput C] {c d : C} {tokens : List τ}

namespace Reads

/-- What is reached by reading is what is consumed. -/
theorem consumes (h : Reads c tokens d) : Consumes c d where
  sameSource := h.sameSource
  position_le := h.position_le
  unread := ⟨tokens, h.after_eq, LawfulInput.sliceTo_eq h, by
    rw [LawfulInput.rest_eq, h.after_eq], LawfulInput.rest_eq d⟩
  count_le := by
    have hCount := h.count_eq
    omega
  moved_iff := by
    have hCount := h.count_eq
    rw [h.position_lt_iff, ← length_pos_iff]
    omega

end Reads

variable [ToValue τ] [ToValue σ]

/-- The tokens that a result has consumed, and the place where a failure is
reported. -/
theorem Alignment.Outcome.consumes {V : Value → Value → Prop} {r r' : Result C Value}
    (h : (Alignment.diagonal C).Outcome V c c r r') :
    (∀ v d, r = .ok (v, d) → Consumes c d) ∧ ∀ e, r = .error e → e.Ahead c := by
  cases h with
  | ok hValue hReaches =>
    obtain ⟨tokens, hReads⟩ := hReaches.left
    refine ⟨?_, fun e h => by cases h⟩
    rintro v d h
    cases h
    exact hReads.consumes
  | error hFailure =>
    obtain ⟨tokens, hReads⟩ := hFailure.reaches.left
    refine ⟨fun v d h => (by cases h), ?_⟩
    rintro e h
    cases h
    have hPosition := hFailure.left_position
    refine ⟨hReads.sameSource, hPosition, ?_, ?_⟩
    · rw [hPosition]
      exact hReads.position_le
    · rw [hPosition, ← hReads.source_eq]
      exact position_le_size _

namespace Session

variable [LawfulToken τ]

/-- Whatever has been run and forgotten, a run that succeeds leaves the cursor after
what it has consumed, and one that fails reports the failure ahead of where it
started. -/
theorem Reachable.consumption {memory : Nat → List τ} {session : Session C}
    (h : session.Reachable memory) (hMemory : InMemory memory c) (g : Grammar) :
    (∀ v d, session.result? g c = some (.ok (v, d)) → Consumes c d) ∧
      ∀ e, session.result? g c = some (.error e) → e.Ahead c := by
  constructor
  · intro v d hResult
    exact ((h.result?_iff hMemory).mp hResult).outcome.consumes.1 v d rfl
  · intro e hResult
    exact ((h.result?_iff hMemory).mp hResult).outcome.consumes.2 e rfl

end Session

end

/-- A failure that is stored in one run and found in the next one. -/
theorem Session.consumption_of_stored :
    ∃ session : Session (SliceCursor Char), session.Reachable (fun _ => ['a', 'b']) ∧
      (session.table "word").size = 1 ∧
      (∀ v d, session.result? (.seqLeft (.literal "a") (.call (.shared "word")))
        (.ofSource ⟨0, #['a', 'b']⟩) = some (.ok (v, d)) → Consumes (.ofSource ⟨0, #['a', 'b']⟩) d) ∧
      ∀ e, session.result? (.seqLeft (.literal "a") (.call (.shared "word")))
        (.ofSource ⟨0, #['a', 'b']⟩) = some (.error e) → e.Ahead (.ofSource ⟨0, #['a', 'b']⟩) := by
  let program : Program := { shared := [("word", .memo (.takeWhile1 Char.isDigit))] }
  obtain ⟨report, session, hParse, hSize⟩ : ∃ report session,
      ({ program } : Session (SliceCursor Char)).parse
        (.seqLeft (.literal "a") (.call (.shared "word"))) (.ofSource ⟨0, #['a', 'b']⟩) =
          some (report, session) ∧
      (session.table "word").size = 1 := ⟨_, _, rfl, rfl⟩
  have hSession : session.Reachable (fun _ => ['a', 'b']) :=
    .parse (.start program) ⟨[], rfl⟩ hParse
  exact ⟨session, hSession, hSize, hSession.consumption ⟨[], rfl⟩ _⟩

end Packrat

import Packrat.Proofs.Consumption
import Packrat.Proofs.Equations

/-!
# Equations of results

The result of a run of a session, in terms of the results that the parts of its grammar
have in the same session. Stored results make no difference, so nothing is said about them.

* `Session.Reachable.result?_iff_yieldsAt`: a result is what the plain grammar yields to the
  depth that suffices for the whole run;
* `Session.Reachable.result?_map`, `Session.Reachable.result?_both` and the like: one equation
  for every way to build a grammar that repetitions can be defined by;
* `Session.Reachable.result?_many`, `Session.Reachable.result?_many1`: one round of a
  repetition, and the repetition again.
-/

namespace Packrat

open Input List

namespace Rounds

variable {C τ σ α : Type} [Input C τ σ] {Q : C → Result C Value → Prop} {c : C}
  {failed : ParseError C → Result C (List Value)} {r : Result C Value}

/-- One round and the rounds that follow it, where the values of all of them are one
list. -/
theorem values_iff : (∃ rs, (∃ r₁, Q c r₁ ∧ r₁.cases (fun e => rs = failed e) fun v d =>
      if position c < position d then ∃ r₂, Rounds Q d r₂ ∧ rs = r₂.map (v :: ·)
        else rs = .error (.new c .noProgress)) ∧ r = rs.map .list) ↔
    ∃ r₁, Q c r₁ ∧ r₁.cases (fun e => r = (failed e).map .list) fun v d =>
      if position c < position d then
        ∃ rs, Rounds Q d rs ∧ r = (rs.map .list).map fun w => Operation.cons.eval [v, w]
      else r = .error (.new c .noProgress) := by
  constructor
  · rintro ⟨rs, ⟨e | ⟨v, d⟩, hFirst, hNext⟩, rfl⟩
    · obtain rfl : rs = failed e := hNext
      exact ⟨_, hFirst, rfl⟩
    · refine ⟨_, hFirst, ?_⟩
      by_cases hLt : position c < position d
      · simp only [Result.cases_ok, if_pos hLt] at hNext ⊢
        obtain ⟨r₂, hRounds, rfl⟩ := hNext
        exact ⟨r₂, hRounds, by rw [Result.map_map, Result.map_map]; rfl⟩
      · simp only [Result.cases_ok, if_neg hLt] at hNext ⊢
        rw [hNext]
        rfl
  · rintro ⟨e | ⟨v, d⟩, hFirst, hNext⟩
    · exact ⟨_, ⟨_, hFirst, rfl⟩, hNext⟩
    · by_cases hLt : position c < position d
      · simp only [Result.cases_ok, if_pos hLt] at hNext
        obtain ⟨rs, hRounds, rfl⟩ := hNext
        refine ⟨rs.map (v :: ·), ⟨_, hFirst, ?_⟩, by rw [Result.map_map, Result.map_map]; rfl⟩
        rw [Result.cases_ok, if_pos hLt]
        exact ⟨rs, hRounds, rfl⟩
      · simp only [Result.cases_ok, if_neg hLt] at hNext
        refine ⟨.error (.new c .noProgress), ⟨_, hFirst, ?_⟩, hNext⟩
        rw [Result.cases_ok, if_neg hLt]

end Rounds

namespace Session.Reachable

variable {C τ σ : Type} [Input C τ σ] [InputView C τ σ] [Token τ] [ToValue τ] [ToValue σ]
  [LawfulInput C] [LawfulToken τ] {memory : Nat → List τ} {session : Session C} {c d : C}
  {g h : Grammar} {r : Result C Value} {v : Value}

/-- A depth that suffices for a whole run. -/
theorem result?_iff_yieldsAt (hSession : session.Reachable memory) (hMemory : InMemory memory c)
    {tokens : List τ} (hReads : Reads c tokens d) : session.result? g d = some r ↔
      session.program.YieldsAt (session.program.names.length * (left c + 1)) g d r := by
  rw [hSession.result?_iff (hReads.inMemory hMemory)]
  exact (Program.yieldsAt_iff_yields hReads (Nat.le_refl _)).symm

/-- A value comes with a cursor that is reached by reading. -/
theorem reads (hSession : session.Reachable memory) (hMemory : InMemory memory c)
    (hResult : session.result? g c = some (.ok (v, d))) : ∃ tokens, Reads c tokens d :=
  ((hSession.result?_iff_yieldsAt hMemory (.refl c)).mp hResult).reads

/-- A value at a cursor that is not moved on comes with that cursor. -/
theorem eq_of_not_lt (hSession : session.Reachable memory) (hMemory : InMemory memory c)
    (hResult : session.result? g c = some (.ok (v, d))) (hLe : ¬position c < position d) :
    d = c := by
  obtain ⟨tokens, hReads⟩ := hSession.reads hMemory hResult
  obtain rfl : tokens = [] := by simpa [hReads.position_lt_iff] using hLe
  exact hReads.eq (.refl c)

theorem result?_pure (hSession : session.Reachable memory) (hMemory : InMemory memory c)
    (v : Value) : session.result? (.pure v) c = some (.ok (v, c)) := by
  rw [hSession.result?_iff_yieldsAt hMemory (.refl c)]
  exact Run.gives_stop.mpr rfl

/-- Results that are given by a result of another grammar at the same cursor. -/
theorem result?_eq_bind (hSession : session.Reachable memory) (hMemory : InMemory memory c)
    {next : Result C Value → Option (Result C Value)}
    (hIff : ∀ n r, n = session.program.names.length * (left c + 1) →
      (session.program.YieldsAt n h c r ↔
        ∃ r₁, session.program.YieldsAt n g c r₁ ∧ next r₁ = some r)) :
    session.result? h c = (session.result? g c).bind next := by
  apply Option.ext
  intro r
  rw [hSession.result?_iff_yieldsAt hMemory (.refl c), hIff _ r rfl, Option.bind_eq_some_iff]
  simp only [hSession.result?_iff_yieldsAt hMemory (.refl c)]

theorem result?_map (hSession : session.Reachable memory) (hMemory : InMemory memory c)
    (f : Value → Value) (g : Grammar) :
    session.result? (.map f g) c = (session.result? g c).map (Result.map f) := by
  rw [Option.map_eq_bind]
  refine hSession.result?_eq_bind hMemory fun n r _ => ?_
  rw [Program.yieldsAt_map_iff]
  refine exists_congr fun r₁ => and_congr_right fun _ => ?_
  exact eq_comm.trans Option.some_inj.symm

theorem result?_both (hSession : session.Reachable memory) (hMemory : InMemory memory c)
    (g h : Grammar) : session.result? (.both g h) c = (session.result? g c).bind
      (Result.cases (fun e => some (.error e))
        fun v d => (session.result? h d).map (Result.map (.pair v))) := by
  refine hSession.result?_eq_bind hMemory fun n r hn => ?_
  rw [Program.yieldsAt_both_iff]
  refine exists_congr fun r₁ => and_congr_right fun hFirst => ?_
  rcases r₁ with e | ⟨v, d⟩
  · exact eq_comm.trans Option.some_inj.symm
  · obtain ⟨tokens, hReads⟩ := hFirst.reads
    rw [Result.cases_ok, Option.map_eq_some_iff]
    refine exists_congr fun r₂ => ?_
    rw [hSession.result?_iff_yieldsAt hMemory hReads, ← hn]
    exact and_congr_right fun _ => eq_comm

theorem result?_orElse (hSession : session.Reachable memory) (hMemory : InMemory memory c)
    (g h : Grammar) : session.result? (.orElse g h) c = (session.result? g c).bind
      (Result.cases (fun e => (session.result? h c).map (Result.mapError (e.merge · c)))
        fun v d => some (.ok (v, d))) := by
  refine hSession.result?_eq_bind hMemory fun n r hn => ?_
  rw [Program.yieldsAt_orElse_iff]
  refine exists_congr fun r₁ => and_congr_right fun _ => ?_
  rcases r₁ with e | ⟨v, d⟩
  · rw [Result.cases_error, Result.cases_error, Option.map_eq_some_iff]
    refine exists_congr fun r₂ => ?_
    rw [hSession.result?_iff_yieldsAt hMemory (.refl c), ← hn]
    exact and_congr_right fun _ => eq_comm
  · exact eq_comm.trans Option.some_inj.symm

/-- A name has the results of its grammar. -/
theorem result?_call (hSession : session.Reachable memory) (hMemory : InMemory memory c)
    (x : Reference) : session.result? (.call x) c =
      (session.program.find? x).bind fun g => session.result? g c := by
  apply Option.ext
  intro r
  rw [hSession.result?_iff_yieldsAt hMemory (.refl c),
    Program.yieldsAt_call_iff_of_deep (.refl c) (Nat.le_refl _), Option.bind_eq_some_iff]
  simp only [hSession.result?_iff_yieldsAt hMemory (.refl c)]

/-! ## Repetition -/

/-- A repetition that fails as given where its first round fails. -/
private theorem result?_rounds (hSession : session.Reachable memory) (hMemory : InMemory memory c)
    (failed : ParseError C → Result C (List Value))
    (hIff : ∀ n r, session.program.YieldsAt n h c r ↔
      ∃ r₁, session.program.YieldsAt n g c r₁ ∧
        r₁.cases (fun e => r = (failed e).map .list) fun v d =>
          if position c < position d then ∃ rs, Rounds (session.program.YieldsAt n g) d rs ∧
            r = (rs.map .list).map fun w => Operation.cons.eval [v, w]
          else r = .error (.new c .noProgress)) :
    session.result? h c = (session.result? g c).bind
      (Result.cases (fun e => some ((failed e).map .list)) fun v d =>
        if position c < position d then
          (session.result? (.many g) d).map (Result.map fun w => Operation.cons.eval [v, w])
        else some (.error (.new c .noProgress))) := by
  refine hSession.result?_eq_bind hMemory fun n r hn => ?_
  rw [hIff]
  refine exists_congr fun r₁ => and_congr_right fun hFirst => ?_
  rcases r₁ with e | ⟨v, d⟩
  · exact eq_comm.trans Option.some_inj.symm
  · obtain ⟨tokens, hReads⟩ := hFirst.reads
    rw [Result.cases_ok, Result.cases_ok]
    by_cases hLt : position c < position d
    · rw [if_pos hLt, if_pos hLt, Option.map_eq_some_iff]
      simp only [hSession.result?_iff_yieldsAt hMemory hReads, ← hn, Program.yieldsAt_many_iff]
      constructor
      · rintro ⟨rs, hRounds, rfl⟩
        exact ⟨_, ⟨rs, hRounds, rfl⟩, rfl⟩
      · rintro ⟨_, ⟨rs, hRounds, rfl⟩, rfl⟩
        exact ⟨rs, hRounds, rfl⟩
    · rw [if_neg hLt, if_neg hLt]
      exact eq_comm.trans Option.some_inj.symm

/-- A repetition is over where its parser fails, and fails where it has read nothing. -/
theorem result?_many (hSession : session.Reachable memory) (hMemory : InMemory memory c)
    (g : Grammar) : session.result? (.many g) c = (session.result? g c).bind
      (Result.cases (fun _ => some (.ok (.list [], c))) fun v d =>
        if position c < position d then
          (session.result? (.many g) d).map (Result.map fun w => Operation.cons.eval [v, w])
        else some (.error (.new c .noProgress))) := by
  refine hSession.result?_rounds hMemory (fun _ => .ok ([], c)) fun n r => ?_
  rw [Program.yieldsAt_many_iff]
  simp only [rounds_iff (c := c)]
  exact Rounds.values_iff

/-- A first round that fails is the failure of a repetition that needs it. -/
theorem result?_many1 (hSession : session.Reachable memory) (hMemory : InMemory memory c)
    (g : Grammar) : session.result? (.many1 g) c = (session.result? g c).bind
      (Result.cases (fun e => some (.error e)) fun v d =>
        if position c < position d then
          (session.result? (.many g) d).map (Result.map fun w => Operation.cons.eval [v, w])
        else some (.error (.new c .noProgress))) := by
  refine hSession.result?_rounds hMemory .error fun n r => ?_
  rw [Program.yieldsAt_many1_iff]
  simp only [rounds1_iff]
  exact Rounds.values_iff

end Session.Reachable

end Packrat

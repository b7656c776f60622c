import Packrat.Proofs.Results

/-!
# Repetition, unfolded

The loop of a repetition beside the definitions that textbooks give: one round and then
the repetition, a choice between at least one round and none, and a rule that refers to
itself. They are compared by whole results. A repetition that needs a first round always
agrees with its unfolding. The other definitions differ from the loop in one case only:
where a round reads nothing, the loop fails, a choice takes this failure for the end of
the repetition and starts over with nothing, and a recursion does not return.

* `Grammar.oneAndMany`, `Grammar.someOrNone`, `Grammar.recursive`: the definitions;
* `Session.Iterates`, `Session.StallsAt`: the rounds of a repetition, and one that reads
  nothing;
* `Session.Reachable.many_eq_error_iff`: a repetition fails exactly where a round stalls;
* `Session.Reachable.repetition_agrees`: where the definitions agree, and where they do
  not.
-/

namespace Packrat

open Input

/-! ## The definitions -/

/-- A function of two arguments, on a pair of them. -/
def Value.uncurried (f : Operation) : Value → Value
  | .pair v w => f.eval [v, w]
  | _ => .unit

namespace Grammar

/-- One round, in front of the values of the repetition. -/
def oneAndMany (g : Grammar) : Grammar :=
  .map (Value.uncurried .cons) (.both g (.many g))

/-- At least one round, or else no value. -/
def someOrNone (g : Grammar) : Grammar :=
  .orElse (.many1 g) (.pure (.list []))

/-- One round in front of the values of the rule of a name, or else no value. -/
def recursive (name : String) (g : Grammar) : Grammar :=
  .orElse (.map (Value.uncurried .cons) (.both g (.call (.rule name)))) (.pure (.list []))

end Grammar

namespace Session

variable {C τ σ : Type} [Input C τ σ] [Token τ] [ToValue τ] [ToValue σ] {session : Session C}
  {g : Grammar} {c d e : C} {v : Value}

/-- Some rounds of a repetition lead from a cursor to another one, and each of them
moves the cursor on. -/
inductive Iterates (session : Session C) (g : Grammar) : C → C → Prop
  | refl (c : C) : Iterates session g c c
  | next {c d e : C} {v : Value} (hRound : session.result? g c = some (.ok (v, d)))
    (hLt : position c < position d) (hMore : Iterates session g d e) : Iterates session g c e

/-- Some rounds lead to a cursor where the next one succeeds and does not move it on. -/
def StallsAt (session : Session C) (g : Grammar) (c d : C) : Prop :=
  session.Iterates g c d ∧
    ∃ v d', session.result? g d = some (.ok (v, d')) ∧ ¬position d < position d'

namespace StallsAt

/-- A repetition that stalls later on stalls. -/
theorem of_round (hRound : session.result? g c = some (.ok (v, d)))
    (hLt : position c < position d) (hStalls : session.StallsAt g d e) :
    session.StallsAt g c e :=
  ⟨.next hRound hLt hStalls.1, hStalls.2⟩

/-- A repetition that does not stall moves on in its first round. -/
theorem lt_of_none (hNone : ∀ e, ¬session.StallsAt g c e)
    (hRound : session.result? g c = some (.ok (v, d))) : position c < position d := by
  by_contra hLe
  exact hNone c ⟨.refl c, v, d, hRound, hLe⟩

end StallsAt

/-- How the loop of a repetition compares with what it is defined by elsewhere. -/
structure RepetitionAgrees (session : Session C) (g : Grammar) (c : C) : Prop where
  /-- At least one round is one round and the repetition, whether or not it stalls. -/
  many1_eq : session.result? (.many1 g) c = session.result? g.oneAndMany c
  /-- Without a round that stalls, the repetition is a choice. -/
  many_eq_choice : (∀ d, ¬session.StallsAt g c d) →
    session.result? (.many g) c = session.result? g.someOrNone c
  /-- Without a round that stalls, the repetition is a rule that refers to itself. -/
  many_eq_rule : (∀ d, ¬session.StallsAt g c d) →
    ∀ name, session.program.rules.lookup name = some (g.recursive name) →
      session.result? (.many g) c = session.result? (.call (.rule name)) c
  /-- Without a round that stalls, the rule returns if all the rounds do. -/
  rule_returns : (∀ d, ¬session.StallsAt g c d) →
    (∀ d, session.Iterates g c d → (session.result? g d).isSome) →
    ∀ name, session.program.rules.lookup name = some (g.recursive name) →
      (session.result? (.call (.rule name)) c).isSome
  /-- Where a round stalls, the repetition fails, but the choice has no values. -/
  of_stall : ∀ d, session.StallsAt g c d →
    session.result? (.many g) c = some (.error (.new d .noProgress)) ∧
      session.result? g.someOrNone c = some (.ok (.list [], c))
  /-- There the rule does not return at all. -/
  rule_of_stall : ∀ d, session.StallsAt g c d →
    ∀ name, session.program.rules.lookup name = some (g.recursive name) →
      session.result? (.call (.rule name)) c = none

end Session

/-! ## Comparison -/

namespace Session.Reachable

variable {C τ σ : Type} [Input C τ σ] [InputView C τ σ] [Token τ] [ToValue τ] [ToValue σ]
  [LawfulInput C] [LawfulToken τ] {memory : Nat → List τ} {session : Session C} {c d : C}
  {g : Grammar} {v : Value}

/-- A round that moves on leaves less to read, in the same memory. -/
theorem round (hSession : session.Reachable memory) (hMemory : InMemory memory c)
    (hRound : session.result? g c = some (.ok (v, d))) (hLt : position c < position d) :
    left d < left c ∧ InMemory memory d := by
  obtain ⟨tokens, hReads⟩ := hSession.reads hMemory hRound
  exact ⟨hReads.left_lt hLt, hReads.inMemory hMemory⟩

/-- After a round that moves on, a repetition goes on. -/
theorem result?_many_of_round (hSession : session.Reachable memory)
    (hMemory : InMemory memory c) (hRound : session.result? g c = some (.ok (v, d)))
    (hLt : position c < position d) : session.result? (.many g) c =
      (session.result? (.many g) d).map (Result.map fun w => Operation.cons.eval [v, w]) := by
  rw [hSession.result?_many hMemory, hRound, Option.bind_some, Result.cases_ok, if_pos hLt]

/-- A repetition stalls where a round has read nothing. -/
theorem result?_many_of_stall (hSession : session.Reachable memory)
    (hMemory : InMemory memory c) (hRound : session.result? g c = some (.ok (v, d)))
    (hLe : ¬position c < position d) :
    session.result? (.many g) c = some (.error (.new c .noProgress)) := by
  rw [hSession.result?_many hMemory, hRound, Option.bind_some, Result.cases_ok, if_neg hLe]

/-- A repetition fails where one of its rounds stalls, and nowhere else. -/
theorem many_eq_error_iff (hSession : session.Reachable memory) (hMemory : InMemory memory c)
    {e : ParseError C} : session.result? (.many g) c = some (.error e) ↔
      ∃ d, session.StallsAt g c d ∧ e = .new d .noProgress := by
  constructor
  · intro hFails
    -- Each round leaves less to read.
    induction hLeft : left c using Nat.strongRecOn generalizing c with
    | ind n ih =>
      rcases hRound : session.result? g c with _ | e₁ | ⟨v, d⟩
      · rw [hSession.result?_many hMemory, hRound] at hFails
        cases hFails
      · rw [hSession.result?_many hMemory, hRound] at hFails
        cases hFails
      · by_cases hLt : position c < position d
        · obtain ⟨hLess, hMemory'⟩ := hSession.round hMemory hRound hLt
          rw [hSession.result?_many_of_round hMemory hRound hLt] at hFails
          obtain ⟨r, hMore, hMap⟩ := Option.map_eq_some_iff.mp hFails
          rcases r with e₁ | ⟨w, d'⟩
          · obtain rfl : e₁ = e := by simpa [Result.map] using hMap
            obtain ⟨d', hStalls, rfl⟩ := ih (left d) (hLeft ▸ hLess) hMemory' hMore rfl
            exact ⟨d', hStalls.of_round hRound hLt, rfl⟩
          · cases hMap
        · rw [hSession.result?_many_of_stall hMemory hRound hLt] at hFails
          cases hFails
          exact ⟨c, ⟨.refl c, v, d, hRound, hLt⟩, rfl⟩
  · rintro ⟨d, ⟨hIterates, v, d', hStall, hLe⟩, rfl⟩
    induction hIterates with
    | refl c => exact hSession.result?_many_of_stall hMemory hStall hLe
    | @next c c' d w hRound hLt _ ih =>
      obtain ⟨-, hMemory'⟩ := hSession.round hMemory hRound hLt
      rw [hSession.result?_many_of_round hMemory hRound hLt, ih hMemory' hStall hLe]
      rfl

/-- A repetition returns if all its rounds do. -/
theorem many_isSome (hSession : session.Reachable memory) (hMemory : InMemory memory c)
    (hRounds : ∀ d, session.Iterates g c d → (session.result? g d).isSome) :
    (session.result? (.many g) c).isSome := by
  induction hLeft : left c using Nat.strongRecOn generalizing c with
  | ind n ih =>
    obtain ⟨r, hRound⟩ := Option.isSome_iff_exists.mp (hRounds c (.refl c))
    rcases r with e | ⟨v, d⟩
    · rw [hSession.result?_many hMemory, hRound]
      rfl
    · by_cases hLt : position c < position d
      · obtain ⟨hLess, hMemory'⟩ := hSession.round hMemory hRound hLt
        rw [hSession.result?_many_of_round hMemory hRound hLt, Option.isSome_map]
        exact ih (left d) (hLeft ▸ hLess) hMemory'
          (fun d' hIterates => hRounds d' (.next hRound hLt hIterates)) rfl
      · rw [hSession.result?_many_of_stall hMemory hRound hLt]
        rfl

/-- A round that stalls stalls again in the repetition that follows it. -/
theorem many1_eq_oneAndMany (hSession : session.Reachable memory) (hMemory : InMemory memory c)
    (g : Grammar) : session.result? (.many1 g) c = session.result? g.oneAndMany c := by
  unfold Grammar.oneAndMany
  rw [hSession.result?_many1 hMemory, hSession.result?_map hMemory,
    hSession.result?_both hMemory]
  rcases hRound : session.result? g c with _ | e | ⟨v, d⟩
  · rfl
  · rfl
  · simp only [Option.bind_some, Result.cases_ok, Option.map_map]
    by_cases hLt : position c < position d
    · rw [if_pos hLt]
      congr 1
      funext r
      rcases r with e | ⟨w, d'⟩ <;> rfl
    · obtain rfl : d = c := hSession.eq_of_not_lt hMemory hRound hLt
      rw [if_neg hLt, hSession.result?_many_of_stall hMemory hRound hLt]
      rfl

/-- A choice hides the failure of a repetition that stalls, and nothing else. -/
theorem result?_someOrNone (hSession : session.Reachable memory) (hMemory : InMemory memory c)
    (g : Grammar) : session.result? g.someOrNone c = (session.result? (.many g) c).map
      (Result.cases (fun _ => .ok (.list [], c)) fun v d => .ok (v, d)) := by
  unfold Grammar.someOrNone
  rw [hSession.result?_orElse hMemory, hSession.result?_pure hMemory,
    hSession.result?_many1 hMemory, hSession.result?_many hMemory]
  rcases session.result? g c with _ | e | ⟨v, d⟩
  · rfl
  · rfl
  · by_cases hLt : position c < position d
    · simp only [Option.bind_some, Result.cases_ok, if_pos hLt]
      rcases session.result? (.many g) d with _ | e | ⟨w, d'⟩ <;> rfl
    · simp only [Option.bind_some, Result.cases_ok, if_neg hLt]
      rfl

/-- Without a round that stalls, the repetition and the rule take the same rounds. -/
theorem many_eq_recursive (hSession : session.Reachable memory) (hMemory : InMemory memory c)
    (hNone : ∀ d, ¬session.StallsAt g c d) {name : String}
    (hRule : session.program.rules.lookup name = some (g.recursive name)) :
    session.result? (.many g) c = session.result? (.call (.rule name)) c := by
  have hFind : session.program.find? (.rule name) = some (g.recursive name) := hRule
  induction hLeft : left c using Nat.strongRecOn generalizing c with
  | ind n ih =>
    rw [hSession.result?_call hMemory, hFind, Option.bind_some, Grammar.recursive,
      hSession.result?_orElse hMemory, hSession.result?_pure hMemory,
      hSession.result?_map hMemory, hSession.result?_both hMemory]
    rcases hRound : session.result? g c with _ | e | ⟨v, d⟩
    · rw [hSession.result?_many hMemory, hRound]
      rfl
    · rw [hSession.result?_many hMemory, hRound]
      rfl
    · have hLt := StallsAt.lt_of_none hNone hRound
      obtain ⟨hLess, hMemory'⟩ := hSession.round hMemory hRound hLt
      have hNone' : ∀ e, ¬session.StallsAt g d e :=
        fun e hStalls => hNone e (hStalls.of_round hRound hLt)
      rw [hSession.result?_many_of_round hMemory hRound hLt, Option.bind_some, Result.cases_ok,
        ← ih (left d) (hLeft ▸ hLess) hMemory' hNone' rfl]
      -- The rest of the repetition has not failed, so the rule has no failure to hide.
      rcases hMore : session.result? (.many g) d with _ | e | ⟨w, d'⟩
      · rfl
      · obtain ⟨d', hStalls, -⟩ := (hSession.many_eq_error_iff hMemory').mp hMore
        exact absurd hStalls (hNone' d')
      · rfl

/-- A rule that comes back to itself at one cursor does not return: a result would need the
same result where references are followed less deeply. -/
theorem rule_eq_none_of_round (hSession : session.Reachable memory) (hMemory : InMemory memory c)
    {name : String} (hRule : session.program.rules.lookup name = some (g.recursive name))
    (hRound : session.result? g c = some (.ok (v, c))) :
    session.result? (.call (.rule name)) c = none := by
  by_contra hSome
  obtain ⟨r, hResult⟩ := Option.ne_none_iff_exists'.mp hSome
  have hYields := (hSession.result?_iff_yieldsAt hMemory (.refl c)).mp hResult
  obtain ⟨n, -, hLeast, hNone⟩ := hYields.exists_least
  cases n with
  | zero => exact Program.not_yieldsAt_zero hLeast
  | succ n =>
    obtain ⟨g', hFind, hChoice⟩ := Program.yieldsAt_call_iff.mp hLeast
    obtain rfl : g.recursive name = g' := Option.some.inj (hRule.symm.trans hFind)
    obtain ⟨r₁, hMap, -⟩ := Program.yieldsAt_orElse_iff.mp hChoice
    obtain ⟨r₂, hBoth, -⟩ := Program.yieldsAt_map_iff.mp hMap
    obtain ⟨r₃, hFirst, hLeads⟩ := Program.yieldsAt_both_iff.mp hBoth
    obtain rfl : r₃ = .ok (v, c) :=
      hFirst.yields.unique ((hSession.result?_iff hMemory).mp hRound)
    obtain ⟨r₄, hAgain, -⟩ := hLeads
    exact hNone n (Nat.lt_succ_self n) r₄ hAgain

/-- So it does not return where it gets there by some rounds. -/
theorem rule_eq_none_of_stall (hSession : session.Reachable memory) (hMemory : InMemory memory c)
    {name : String} (hRule : session.program.rules.lookup name = some (g.recursive name))
    (hStalls : session.StallsAt g c d) : session.result? (.call (.rule name)) c = none := by
  have hFind : session.program.find? (.rule name) = some (g.recursive name) := hRule
  obtain ⟨hIterates, v, d', hStall, hLe⟩ := hStalls
  induction hIterates with
  | refl c =>
    obtain rfl : d' = c := hSession.eq_of_not_lt hMemory hStall hLe
    exact hSession.rule_eq_none_of_round hMemory hRule hStall
  | @next c c' d w hRound hLt _ ih =>
    obtain ⟨-, hMemory'⟩ := hSession.round hMemory hRound hLt
    rw [hSession.result?_call hMemory, hFind, Option.bind_some, Grammar.recursive,
      hSession.result?_orElse hMemory, hSession.result?_map hMemory,
      hSession.result?_both hMemory, hRound, Option.bind_some, Result.cases_ok,
      ih hMemory' hStall hLe]
    rfl

/-- The loop of a repetition agrees with its definitions, but for rounds that read
nothing: there it fails, the choice between some rounds and none hides it, and the rule
does not return. -/
theorem repetition_agrees (hSession : session.Reachable memory) (hMemory : InMemory memory c)
    (g : Grammar) : session.RepetitionAgrees g c where
  many1_eq := hSession.many1_eq_oneAndMany hMemory g
  many_eq_choice hNone := by
    rw [hSession.result?_someOrNone hMemory]
    rcases hMany : session.result? (.many g) c with _ | e | ⟨v, d⟩
    · rfl
    · obtain ⟨d, hStalls, -⟩ := (hSession.many_eq_error_iff hMemory).mp hMany
      exact absurd hStalls (hNone d)
    · rfl
  many_eq_rule hNone name hRule := hSession.many_eq_recursive hMemory hNone hRule
  rule_returns hNone hRounds name hRule := by
    rw [← hSession.many_eq_recursive hMemory hNone hRule]
    exact hSession.many_isSome hMemory hRounds
  of_stall d hStalls := by
    have hMany := (hSession.many_eq_error_iff hMemory).mpr ⟨d, hStalls, rfl⟩
    refine ⟨hMany, ?_⟩
    rw [hSession.result?_someOrNone hMemory, hMany]
    rfl
  rule_of_stall d hStalls name hRule := hSession.rule_eq_none_of_stall hMemory hRule hStalls

/-- One digit has been read and stored, and the rest of the source is read by a rule that
refers to itself. -/
theorem repetition_agrees_of_stored :
    ∃ session : Session (SliceCursor Char), session.Reachable (fun _ => ['4', '2', 'x']) ∧
      (session.table "digit").size = 1 ∧
      session.RepetitionAgrees (.call (.shared "digit")) (.ofSource ⟨0, #['4', '2', 'x']⟩) ∧
      session.result? (.call (.rule "digits")) (.ofSource ⟨0, #['4', '2', 'x']⟩) =
        some (.ok (.list [.char '4', .char '2'], ⟨⟨0, #['4', '2', 'x']⟩, 2, by decide⟩)) := by
  let digit : Grammar := .call (.shared "digit")
  let program : Program :=
    { rules := [("digits", .recursive "digits" digit)],
      shared := [("digit", .memo Grammar.digit)] }
  obtain ⟨report, session, hParse, hProgram, hSize, hMany⟩ : ∃ report session,
      ({ program } : Session (SliceCursor Char)).parse digit
        (.ofSource ⟨0, #['4', '2', 'x']⟩) = some (report, session) ∧
      session.program = program ∧ (session.table "digit").size = 1 ∧
      session.result? (.many digit) (.ofSource ⟨0, #['4', '2', 'x']⟩) =
        some (.ok (.list [.char '4', .char '2'], ⟨⟨0, #['4', '2', 'x']⟩, 2, by decide⟩)) :=
    ⟨_, _, rfl, rfl, rfl, rfl⟩
  have hSession : session.Reachable (fun _ => ['4', '2', 'x']) :=
    .parse (.start program) ⟨[], rfl⟩ hParse
  have hMemory : InMemory (fun _ => ['4', '2', 'x'])
      (SliceCursor.ofSource ⟨0, #['4', '2', 'x']⟩) := ⟨[], rfl⟩
  have hAgrees := hSession.repetition_agrees hMemory digit
  have hNone : ∀ d, ¬session.StallsAt digit (.ofSource ⟨0, #['4', '2', 'x']⟩) d := by
    intro d hStalls
    rw [(hAgrees.of_stall d hStalls).1] at hMany
    cases hMany
  have hRule := hAgrees.many_eq_rule hNone "digits" (by rw [hProgram]; rfl)
  exact ⟨session, hSession, hSize, hAgrees, hRule ▸ hMany⟩

end Session.Reachable

end Packrat

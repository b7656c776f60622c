import Packrat.Input.Slice.Lemmas
import Packrat.Proofs.Transparency

/-!
# Sessions

The states that sessions come into, by runs from cursors in one memory and by
forgetting stored results in between. All of them are sound, so every run of every
session gives what the plain grammar gives.

* `Session.Reachable`: the sessions that runs lead to;
* `Session.parse_eq`: a run of a session is a run of the grammar's parser with a
  record around it;
* `Session.Reachable.sound`: stored results are always those of plain grammars;
* `Session.Reachable.result?_iff`: what a run gives, in terms of the plain grammar;
* `Session.Reachable.result?_eq_plain`: memoisation is transparent.
-/

namespace Packrat

open Input

namespace Session

section

variable {C τ σ : Type} [Input C τ σ] [Token τ] [ToValue τ] [ToValue σ]

/-- The state in which a run from a cursor starts. -/
def opened (session : Session C) (c : C) : State C :=
  { session.state with log := [] }.note (.entered (position c))

/-- The state in which a run with a result ends. -/
def closed (st : State C) (r : Result C Value) : State C :=
  (st.note (Parser.ending r)).note .exited

theorem parse_eq (session : Session C) (g : Grammar) (c : C) :
    session.parse g c = (session.program.parser g c (session.opened c)).map fun x =>
      (⟨x.1, (closed x.2 x.1).log.reverse⟩, { session with state := closed x.2 x.1 }) := by
  unfold parse Program.run Parser.run opened
  rcases session.program.parser g c _ with _ | ⟨result, state⟩
  · rfl
  · rfl

theorem parse_eq_some_iff {session next : Session C} {g : Grammar} {c : C}
    {report : Report C} : session.parse g c = some (report, next) ↔
      ∃ s, session.program.parser g c (session.opened c) = some (report.result, s) ∧
        report.trace = (closed s report.result).log.reverse ∧
        next = { session with state := closed s report.result } := by
  rw [parse_eq, Option.map_eq_some_iff]
  constructor
  · rintro ⟨⟨result, s⟩, hRun, hEq⟩
    cases hEq
    exact ⟨s, hRun, rfl, rfl⟩
  · rintro ⟨s, hRun, hTrace, rfl⟩
    obtain ⟨result, trace⟩ := report
    dsimp only at hTrace hRun ⊢
    exact ⟨(result, s), hRun, by rw [hTrace]⟩

/-- The result of a run, without its record. -/
def result? (session : Session C) (g : Grammar) (c : C) : Option (Result C Value) :=
  (session.parse g c).map fun x => x.1.result

theorem result?_eq_some_iff {session : Session C} {g : Grammar} {c : C} {r : Result C Value} :
    session.result? g c = some r ↔
      ∃ s, session.program.parser g c (session.opened c) = some (r, s) := by
  unfold result?
  rw [parse_eq, Option.map_map, Option.map_eq_some_iff]
  constructor
  · rintro ⟨⟨result, s⟩, hRun, rfl⟩
    exact ⟨s, hRun⟩
  · rintro ⟨s, hRun⟩
    exact ⟨(r, s), hRun, rfl⟩

variable [InputView C τ σ]

/-- The sessions that start with nothing stored and are led on by runs, from any
cursors in memory, and by forgetting the results of named parsers. -/
inductive Reachable (memory : Nat → List τ) : Session C → Prop
  | start (program : Program) : Reachable memory { program }
  | parse {session next : Session C} {g c report} (h : Reachable memory session)
    (hMemory : InMemory memory c) (hParse : session.parse g c = some (report, next)) :
    Reachable memory next
  | clear {session : Session C} (name : String) (h : Reachable memory session) :
    Reachable memory (session.clear name)

variable [LawfulInput C] [LawfulToken τ] {memory : Nat → List τ} {session : Session C} {c : C}
  {g : Grammar} {r : Result C Value}

namespace Reachable

/-- Whatever has been run and forgotten, the stored results are those that the plain
grammars yield. Nothing is stored for the expression of a run that has ended, so
this holds whichever expression is run next. -/
theorem sound (h : session.Reachable memory) (root : Grammar) :
    session.program.Sound memory root session.state := by
  induction h with
  | start program => exact .empty
  | @parse session next g c report _ hMemory hParse ih =>
    obtain ⟨s, hRun, -, rfl⟩ := parse_eq_some_iff.mp hParse
    exact ((((ih.setLog []).note _).parser_sound hMemory hRun).2.note _).note _
  | clear name _ ih => exact ih.clear _

theorem sound_opened (h : session.Reachable memory) (root : Grammar) :
    session.program.Sound memory root (session.opened c) :=
  ((h.sound root).setLog []).note _

/-- A run gives what the plain grammar yields, and nothing where that yields
nothing. -/
theorem result?_iff (h : session.Reachable memory) (hMemory : InMemory memory c) :
    session.result? g c = some r ↔ session.program.Yields g c r := by
  rw [result?_eq_some_iff]
  exact (h.sound_opened g).parser_iff hMemory

/-- The depth of a run is large enough: following references to any other depth
gives no other result. -/
theorem result?_of_level (h : session.Reachable memory) (hMemory : InMemory memory c) {n : Nat}
    {s : State C} (hRun : Parser.inFreshScope (g.parser (session.program.level n) .fresh) c
      (session.opened c) = some (r, s)) : session.result? g c = some r :=
  (h.result?_iff hMemory).mpr ((h.sound_opened g).parser_sound hMemory hRun).1

end Reachable

/-- A run of a plain grammar gives what the grammar yields, whatever is stored. -/
theorem result?_plain_iff {P : Program} {state : State C} :
    (Session.mk P.plain state).result? g.plain c = some r ↔ P.Yields g c r := by
  rw [result?_eq_some_iff]
  constructor
  · rintro ⟨s, hRun⟩
    obtain ⟨s₁, hPlain, -⟩ := Parser.inFreshScope_eq_some_iff.mp hRun
    exact Program.yields_of_run hPlain
  · intro hYields
    have hDeep : P.names.length * (left c + 1) ≤ P.plain.depth c := by
      rw [Program.depth_plain, Program.depth_eq]
      exact Nat.le_succ _
    obtain ⟨s, hPlain⟩ := hYields.run (.refl c) hDeep .fresh
      { (Session.mk P.plain state).opened c with current := ∅ }
    exact ⟨_, Parser.inFreshScope_eq_some_iff.mpr ⟨s, hPlain, rfl⟩⟩

/-- Memoisation is transparent: whatever runs have been made and whatever has been
forgotten, a run returns exactly when the run of the plain grammar does, and with
the same result. The depth of references does not matter here: a result that is
found at any depth, with memoisation or without it, is the result of the run. -/
theorem Reachable.result?_eq_plain (h : session.Reachable memory) (hMemory : InMemory memory c)
    (g : Grammar) (state : State C) :
    session.result? g c = (Session.mk session.program.plain state).result? g.plain c ∧
      (∀ r, session.program.Yields g c r → session.result? g c = some r) ∧
      ∀ n r s, Parser.inFreshScope (g.parser (session.program.level n) .fresh) c
        (session.opened c) = some (r, s) → session.result? g c = some r := by
  refine ⟨Option.ext fun r => ?_, fun r hYields => ?_, fun n r s hRun => ?_⟩
  · exact (h.result?_iff hMemory).trans result?_plain_iff.symm
  · exact (h.result?_iff hMemory).mpr hYields
  · exact h.result?_of_level hMemory hRun

end

/-- A word is read and stored, and then another source is run that ends earlier in
the same buffer. -/
theorem result?_eq_plain_of_shorter :
    ∃ session : Session (SliceCursor Char), session.Reachable (fun _ => ['a', 'b', 'c']) ∧
      (session.table "word").size = 1 ∧
      session.result? (.call (.shared "word")) (.ofSource ⟨0, #['a', 'b']⟩) =
        (Session.mk session.program.plain {}).result? (.call (.shared "word"))
          (.ofSource ⟨0, #['a', 'b']⟩) := by
  let program : Program := { shared := [("word", .memo (.takeWhile1 Char.isAlpha))] }
  obtain ⟨report, session, hParse, hSize⟩ : ∃ report session,
      ({ program } : Session (SliceCursor Char)).parse (.call (.shared "word"))
        (.ofSource ⟨0, #['a', 'b', 'c']⟩) = some (report, session) ∧
      (session.table "word").size = 1 := ⟨_, _, rfl, rfl⟩
  have hSession : session.Reachable (fun _ => ['a', 'b', 'c']) :=
    .parse (.start program) ⟨[], rfl⟩ hParse
  exact ⟨session, hSession, hSize, (hSession.result?_eq_plain ⟨['c'], rfl⟩ _ _).1⟩

end Session

end Packrat

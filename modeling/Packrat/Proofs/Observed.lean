import Packrat.Proofs.Runs
import Packrat.Proofs.Sessions

/-!
# Observed runs

A run beside which the events are listed that its result and its state do not show: when
a memoised parser is run, when the parser inside it is started, and how many rounds a
repetition has made. Observing a run does not change it.

* `Event`: what is seen of a run;
* `ObservedRun`, `Observed`: runs and parsers with their events;
* `Grammar.observed`, `Program.observed`: the parser of a grammar with its events;
* `Grammar.parser_observed`, `Program.parser_observed`: without them it is the parser of
  the grammar;
* `Session.events`: the events of a run of a session.
-/

namespace Packrat

open Input

/-- What is seen of a run. -/
inductive Event where
  /-- A memoised parser is run at a place. -/
  | invoked (a : Address) (p : Place)
  /-- The parser inside a memoised one is started, at the place of a result that is not
  stored. -/
  | started (a : Address) (p : Place)
  /-- A repetition ends after some rounds, where some tokens were left to it. -/
  | repeated (tokens rounds : Nat)
  deriving DecidableEq, Repr

/-- A run with its events, from first to last. -/
abbrev ObservedRun (C α : Type) := State C → Option ((Result C α × State C) × List Event)

/-- A parser with the events of its runs. -/
abbrev Observed (C α : Type) := C → ObservedRun C α

variable {C τ σ α β γ : Type} {c : C}

/-! ## Runs -/

namespace ObservedRun

/-- The run without its events. -/
def run (x : ObservedRun C α) : Run C α :=
  fun st => (x st).map Prod.fst

/-- End with a result. -/
def stop (r : Result C α) : ObservedRun C α :=
  fun st => some ((r, st), [])

/-- A run, and then the one that its result leads to. -/
def followedBy (x : ObservedRun C α) (next : Result C α → ObservedRun C β) : ObservedRun C β :=
  fun st => (x st).bind fun y => (next y.1.1 y.1.2).map fun z => (z.1, y.2 ++ z.2)

/-- A run after an entry of the record. -/
def noting (entry : Record) (x : ObservedRun C α) : ObservedRun C α :=
  fun st => x (st.note entry)

/-- A run after an event. -/
def seeing (event : Event) (x : ObservedRun C α) : ObservedRun C α :=
  fun st => (x st).map fun y => (y.1, event :: y.2)

variable {x : ObservedRun C α} {next : Result C α → ObservedRun C β}

theorem run_followedBy : (x.followedBy next).run = x.run.followedBy fun r => (next r).run := by
  funext st
  unfold run followedBy Run.followedBy
  dsimp only
  rcases x st with _ | ⟨⟨r, s⟩, events⟩
  · rfl
  · simp only [Option.bind_some, Option.map_some, Option.map_map]
    rfl

theorem run_seeing (event : Event) (x : ObservedRun C α) : (seeing event x).run = x.run := by
  funext st
  unfold run seeing
  rw [Option.map_map]
  rfl

theorem run_ite (p : Prop) [Decidable p] (x y : ObservedRun C α) :
    (if p then x else y).run = if p then x.run else y.run := by
  split <;> rfl

theorem run_eq_some_iff {st s : State C} {r : Result C α} :
    x.run st = some (r, s) ↔ ∃ events, x st = some ((r, s), events) := by
  unfold run
  rw [Option.map_eq_some_iff]
  constructor
  · rintro ⟨⟨⟨r', s'⟩, events⟩, hRun, hEq⟩
    cases hEq
    exact ⟨events, hRun⟩
  · rintro ⟨events, hRun⟩
    exact ⟨_, hRun, rfl⟩

theorem followedBy_eq_some_iff {st s : State C} {r : Result C β} {events : List Event} :
    x.followedBy next st = some ((r, s), events) ↔ ∃ r₁ s₁ first rest,
      x st = some ((r₁, s₁), first) ∧ next r₁ s₁ = some ((r, s), rest) ∧
        events = first ++ rest := by
  unfold followedBy
  rw [Option.bind_eq_some_iff]
  constructor
  · rintro ⟨⟨⟨r₁, s₁⟩, first⟩, hx, hNext⟩
    obtain ⟨⟨y, rest⟩, hRest, hEq⟩ := Option.map_eq_some_iff.mp hNext
    cases hEq
    exact ⟨r₁, s₁, first, rest, hx, hRest, rfl⟩
  · rintro ⟨r₁, s₁, first, rest, hx, hNext, rfl⟩
    exact ⟨_, hx, Option.map_eq_some_iff.mpr ⟨_, hNext, rfl⟩⟩

end ObservedRun

/-! ## Parsers -/

namespace Observed

open ObservedRun

/-- The parser without its events. -/
def parser (x : Observed C α) : Parser C α :=
  fun c => (x c).run

/-- A parser without events. -/
def quiet (p : Parser C α) : Observed C α :=
  fun c st => (p c st).map fun y => (y, [])

def onResult (f : C → Result C α → Result C β) (x : Observed C α) : Observed C β :=
  fun c => (x c).followedBy fun r => stop (f c r)

def map (f : α → β) : Observed C α → Observed C β :=
  onResult fun _ => Result.map f

def bind (x : Observed C α) (k : α → Observed C β) : Observed C β :=
  fun c => (x c).followedBy (Result.cases (fun e => stop (.error e)) k)

/-- Two parsers one after the other, with their values combined. -/
def both (f : α → β → γ) (x : Observed C α) (y : Observed C β) : Observed C γ :=
  bind x fun v => map (f v) y

def marked (default : β) (x : Observed C α) (y : Observed C β) : Observed C β :=
  fun c => (x c).followedBy (Result.cases (fun _ => stop (.ok (default, c))) fun _ d => y d)

def inFreshScope (x : Observed C α) : Observed C α :=
  fun c st => (x c { st with current := ∅ }).map fun y =>
    ((y.1.1, { y.1.2 with current := st.current }), y.2)

def tally (name : String) (x : Observed C α) : Observed C α :=
  fun c st => x c (st.tally name)

section

variable [Input C τ σ]

def orElse (x y : Observed C α) : Observed C α :=
  fun c => (x c).followedBy (Result.cases
    (fun e => noting (.backtracked (position c) e.position)
      ((y c).followedBy fun r => stop (r.mapError (e.merge · c))))
    fun v d => stop (.ok (v, d)))

/-- The end of a repetition that has stalled. -/
def stalled (c : C) : ObservedRun C β :=
  noting (.stalled (position c)) (stop (.error (.new c .noProgress)))

/-- Repeat a parser, with at most `n` more rounds after some have been made, and with
the tokens counted that were left to the repetition. -/
def foldFrom (combine : β → α → β) (x : Observed C α) (tokens : Nat) :
    Nat → Nat → β → C → ObservedRun C β
  | 0, _, _, _ => fun _ => none
  | n + 1, rounds, acc, c => (x c).followedBy (Result.cases
    (fun _ => seeing (.repeated tokens (rounds + 1)) (stop (.ok (acc, c))))
    fun v d => if position c < position d then
        foldFrom combine x tokens n (rounds + 1) (combine acc v) d
      else seeing (.repeated tokens (rounds + 1)) (stalled c))

def fold (combine : β → α → β) (start : β) (x : Observed C α) : Observed C β :=
  fun c => foldFrom combine x (count c) (left c + 1) 0 start c

def fold1 (combine : β → α → β) (start : β) (x : Observed C α) : Observed C β :=
  fun c => (x c).followedBy (Result.cases (fun e => stop (.error e)) fun v d =>
    if position c < position d then fold combine (combine start v) x d else stalled c)

def memo (a : Address) (x : Observed C Value) : Observed C Value :=
  fun c => seeing (.invoked a (place c)) fun st => match st.lookup a (place c) with
    | some r => some ((r, st.note (.memoHit (position c))), [])
    | none => (x c st).map fun y =>
      ((y.1.1, y.1.2.store a (place c) y.1.1), .started a (place c) :: y.2)

end

/-! ## Without events -/

variable {x : Observed C α} {y : Observed C β} {p : Parser C α} {q : Parser C β}

theorem parser_quiet (p : Parser C α) : parser (quiet p) = p := by
  funext c st
  unfold parser run quiet
  rw [Option.map_map]
  exact Option.map_id'

theorem parser_onResult {f : C → Result C α → Result C β}
    (hEq : ∀ c, q c = Run.followedBy (parser x c) fun r => Run.stop (f c r)) :
    parser (onResult f x) = q := by
  funext c
  rw [hEq]
  exact run_followedBy

theorem parser_map (f : α → β) (x : Observed C α) : parser (map f x) = .map f (parser x) :=
  parser_onResult fun _ => Parser.map_eq f _

theorem parser_bind {k : α → Observed C β} {f : α → Parser C β} (hk : ∀ v, parser (k v) = f v) :
    parser (bind x k) = .bind (parser x) f := by
  funext c
  rw [Parser.bind_eq]
  refine run_followedBy.trans ?_
  congr 1
  funext r
  rcases r with e | ⟨v, d⟩
  · rfl
  · exact congrFun (hk v) d

theorem parser_both (f : α × β → γ) : parser (both (fun v w => f (v, w)) x y) =
    .map f (.both (parser x) (parser y)) := by
  funext c
  rw [Parser.map_both_eq]
  exact congrFun (parser_bind fun v => parser_map _ y) c

theorem parser_marked (default : β) :
    parser (marked default x y) = .marked default (parser x) (parser y) := by
  funext c
  rw [Parser.marked_eq]
  refine run_followedBy.trans ?_
  congr 1
  funext r
  rcases r with e | ⟨v, d⟩ <;> rfl

theorem parser_inFreshScope : parser (inFreshScope x) = .inFreshScope (parser x) := by
  funext c st
  unfold parser run inFreshScope Parser.inFreshScope
  dsimp only
  rcases x c { st with current := ∅ } with _ | ⟨⟨r, s⟩, events⟩ <;> rfl

section

variable [Input C τ σ]

theorem parser_orElse {y : Observed C α} :
    parser (orElse x y) = .orElse (parser x) (parser y) := by
  funext c
  rw [Parser.orElse_eq]
  refine run_followedBy.trans ?_
  congr 1
  funext r
  rcases r with e | ⟨v, d⟩
  · exact congrArg (Run.noting _)
      (@run_followedBy _ _ _ (y c) fun r => stop (r.mapError (e.merge · c)))
  · rfl

theorem run_foldFrom (combine : β → α → β) (tokens n : Nat) :
    ∀ rounds acc c, (foldFrom combine x tokens n rounds acc c).run =
      Parser.foldFrom combine (parser x) n acc c := by
  induction n with
  | zero => exact fun rounds acc c => rfl
  | succ n ih =>
    intro rounds acc c
    rw [Parser.foldFrom_succ]
    refine run_followedBy.trans ?_
    congr 1
    funext r
    rcases r with e | ⟨v, d⟩
    · exact run_seeing _ _
    · simp only [Result.cases_ok, run_ite, ih, run_seeing]
      rfl

theorem parser_fold (combine : β → α → β) (start : β) :
    parser (fold combine start x) = .fold combine start (parser x) := by
  funext c
  exact run_foldFrom combine _ _ 0 start c

theorem parser_fold1 (combine : β → α → β) (start : β) :
    parser (fold1 combine start x) = .fold1 combine start (parser x) := by
  funext c
  rw [Parser.fold1_eq]
  refine run_followedBy.trans ?_
  congr 1
  funext r
  rcases r with e | ⟨v, d⟩
  · rfl
  · simp only [Result.cases_ok, run_ite, ← parser_fold]
    rfl

theorem parser_memo {x : Observed C Value} (a : Address) :
    parser (memo a x) = .memo a (parser x) := by
  funext c
  refine (run_seeing _ _).trans ?_
  funext st
  unfold run Parser.memo parser run
  dsimp only
  rcases st.lookup a (place c) with _ | r
  · rcases x c st with _ | ⟨⟨r, s⟩, events⟩ <;> rfl
  · rfl

/-- A memoised parser finds a result, or the parser inside it is started. -/
theorem memo_cases {x : Observed C Value} {a : Address} {st s : State C} {r : Result C Value}
    {events : List Event} (h : memo a x c st = some ((r, s), events)) :
    (st.lookup a (place c) = some r ∧ s = st.note (.memoHit (position c)) ∧
      events = [.invoked a (place c)]) ∨
    (st.lookup a (place c) = none ∧ ∃ s₁ inner, x c st = some ((r, s₁), inner) ∧
      s = s₁.store a (place c) r ∧
      events = .invoked a (place c) :: .started a (place c) :: inner) := by
  obtain ⟨y, hy, hEq⟩ := Option.map_eq_some_iff.mp h
  dsimp only at hy
  rcases hLookup : st.lookup a (place c) with _ | found
  · rw [hLookup] at hy
    obtain ⟨⟨⟨r₁, s₁⟩, inner⟩, hx, rfl⟩ := Option.map_eq_some_iff.mp hy
    cases hEq
    exact .inr ⟨rfl, s₁, inner, hx, rfl, rfl⟩
  · rw [hLookup] at hy
    cases hy
    cases hEq
    exact .inl ⟨rfl, rfl, rfl⟩

end

end Observed

/-! ## Grammars -/

section

variable [Input C τ σ] [Token τ] [ToValue τ] [ToValue σ]

/-- The parser of a grammar at an address, with its events. -/
def Grammar.observed (call : Reference → Observed C Value) : Grammar → Address → Observed C Value
  | map f g, a => .map f (g.observed call a)
  | convert name reason f g, a =>
    .onResult (fun c => Result.cases .error fun v d =>
      .ofOption ((ParseError.new c reason).expecting name) d (f v)) (g.observed call a)
  | both g h, a => .both .pair (g.observed call (a.turn .left)) (h.observed call (a.turn .right))
  | seqRight g h, a =>
    .both (fun _ w => w) (g.observed call (a.turn .left)) (h.observed call (a.turn .right))
  | seqLeft g h, a =>
    .both (fun v _ => v) (g.observed call (a.turn .left)) (h.observed call (a.turn .right))
  | apply g h, a =>
    .both Value.call (g.observed call (a.turn .left)) (h.observed call (a.turn .right))
  | bind g k, a => .bind (g.observed call a) fun v => .inFreshScope ((k v).observed call .fresh)
  | orElse g h, a => .orElse (g.observed call (a.turn .left)) (h.observed call (a.turn .right))
  | label name g, a => .onResult (fun _ => Result.mapError (·.expecting name)) (g.observed call a)
  | lexeme name g, a =>
    .onResult (fun c => Result.mapError fun e => (e.moveTo c).expecting name) (g.observed call a)
  | optional g, a =>
    .onResult (fun c => Result.cases (fun _ => .ok (.none, c)) fun v d => .ok (.some v, d))
      (g.observed call a)
  | option default g, a =>
    .onResult (fun c => Result.cases (fun _ => .ok (default, c)) fun v d => .ok (v, d))
      (g.observed call a)
  | marked default marker body, a =>
    .marked default (marker.observed call (a.turn .left)) (body.observed call (a.turn .right))
  | notFollowedBy g, a =>
    .onResult (fun c => Result.cases (fun _ => .ok (.unit, c))
      fun _ _ => .error (.new c .unwantedMatch)) (g.observed call a)
  | many g, a => .map .list (.map List.reverse (.fold Parser.push [] (g.observed call a)))
  | many1 g, a => .map .list (.map List.reverse (.fold1 Parser.push [] (g.observed call a)))
  | skipMany g, a => .map (fun _ => .unit) (.fold (fun _ _ => ()) () (g.observed call a))
  | skipMany1 g, a => .map (fun _ => .unit) (.fold1 (fun _ _ => ()) () (g.observed call a))
  | memo g, a => .memo a (g.observed call (a.turn .inside))
  | fresh g, _ => .inFreshScope (g.observed call .fresh)
  | .call r, _ => call r
  | tally name g, a => .tally name (g.observed call a)
  -- The grammars without parts.
  | g, a => .quiet (g.parser (fun r => (call r).parser) a)

/-- Observing the parser of a grammar does not change it. -/
theorem Grammar.parser_observed (call : Reference → Observed C Value) (g : Grammar) :
    ∀ a, (g.observed call a).parser = g.parser (fun r => (call r).parser) a := by
  induction g with
  | map f g ih =>
    intro a
    unfold observed parser
    rw [Observed.parser_map, ih]
  | convert name reason f g ih =>
    intro a
    refine Observed.parser_onResult fun c => ?_
    rw [ih]
    exact Parser.convert_eq name reason f _
  | both g h ihg ihh =>
    intro a
    unfold observed parser
    rw [← ihg, ← ihh]
    exact Observed.parser_both fun pair => Value.pair pair.1 pair.2
  | seqRight g h ihg ihh =>
    intro a
    unfold observed parser
    rw [← ihg, ← ihh]
    exact Observed.parser_both Prod.snd
  | seqLeft g h ihg ihh =>
    intro a
    unfold observed parser
    rw [← ihg, ← ihh]
    exact Observed.parser_both Prod.fst
  | apply g h ihg ihh =>
    intro a
    unfold observed parser
    rw [← ihg, ← ihh, Parser.apply_map_eq]
    exact Observed.parser_both fun pair => Value.call pair.1 pair.2
  | bind g k ihg ihk =>
    intro a
    unfold observed parser
    rw [← ihg]
    refine Observed.parser_bind fun v => ?_
    rw [Observed.parser_inFreshScope, ihk]
  | orElse g h ihg ihh =>
    intro a
    unfold observed parser
    rw [Observed.parser_orElse, ihg, ihh]
  | label name g ih =>
    intro a
    refine Observed.parser_onResult fun c => ?_
    rw [ih]
    exact Parser.label_eq name _
  | lexeme name g ih =>
    intro a
    refine Observed.parser_onResult fun c => ?_
    rw [ih]
    exact Parser.lexeme_eq name _
  | optional g ih =>
    intro a
    refine Observed.parser_onResult fun c => ?_
    rw [ih]
    exact Parser.map_optional_eq _ _
  | option default g ih =>
    intro a
    refine Observed.parser_onResult fun c => ?_
    rw [ih]
    exact Parser.option_eq default _
  | marked default g h ihg ihh =>
    intro a
    unfold observed parser
    rw [Observed.parser_marked, ihg, ihh]
  | notFollowedBy g ih =>
    intro a
    refine Observed.parser_onResult fun c => ?_
    rw [ih]
    exact Parser.replace_notFollowedBy_eq _ _
  | many g ih =>
    intro a
    unfold observed parser
    rw [Observed.parser_map, Observed.parser_map, Observed.parser_fold, ih]
    rfl
  | many1 g ih =>
    intro a
    unfold observed parser
    rw [Observed.parser_map, Observed.parser_map, Observed.parser_fold1, ih]
    rfl
  | skipMany g ih =>
    intro a
    unfold observed parser
    rw [Observed.parser_map, Observed.parser_fold, ih]
    rfl
  | skipMany1 g ih =>
    intro a
    unfold observed parser
    rw [Observed.parser_map, Observed.parser_fold1, ih]
    rfl
  | memo g ih =>
    intro a
    unfold observed parser
    rw [Observed.parser_memo, ih]
  | fresh g ih =>
    intro a
    unfold observed parser
    rw [Observed.parser_inFreshScope, ih]
  | call r => exact fun a => rfl
  | tally name g ih =>
    intro a
    unfold observed parser
    rw [← ih]
    rfl
  | _ => exact fun a => Observed.parser_quiet _

namespace Program

/-- The parser of a name with its events, in which references are followed to the given
depth. -/
def observedLevel (P : Program) : Nat → Reference → Observed C Value
  | 0, _ => fun _ _ => none
  | n + 1, .rule name => match P.rules.lookup name with
    | some g => .inFreshScope (g.observed (P.observedLevel n) .fresh)
    | none => fun _ _ => none
  | n + 1, .shared name => match P.shared.lookup name with
    | some g => g.observed (P.observedLevel n) (.named name)
    | none => fun _ _ => none

/-- The parser of a grammar that is built for one run, with its events. -/
def observed (P : Program) (g : Grammar) : Observed C Value :=
  .inFreshScope fun c => g.observed (P.observedLevel (P.depth c)) .fresh c

theorem parser_observedLevel (P : Program) (n : Nat) :
    ∀ x, (P.observedLevel (C := C) n x).parser = P.level n x := by
  induction n with
  | zero => exact fun x => rfl
  | succ n ih =>
    have hCall : (fun x => (P.observedLevel (C := C) n x).parser) = P.level n := funext ih
    intro x
    cases x with
    | rule name =>
      unfold observedLevel level
      rcases P.rules.lookup name with _ | g
      · rfl
      · rw [Observed.parser_inFreshScope, Grammar.parser_observed, hCall]
    | shared name =>
      unfold observedLevel level
      rcases P.shared.lookup name with _ | g
      · rfl
      · rw [Grammar.parser_observed, hCall]

/-- Observing a run of a program does not change it. -/
theorem parser_observed (P : Program) (g : Grammar) :
    (P.observed (C := C) g).parser = P.parser g := by
  have hCall : ∀ n, (fun x => (P.observedLevel (C := C) n x).parser) = P.level n :=
    fun n => funext (P.parser_observedLevel n)
  unfold observed parser
  rw [Observed.parser_inFreshScope]
  congr 1
  funext c
  have hRun := congrFun (g.parser_observed (P.observedLevel (P.depth c)) .fresh) c
  rwa [hCall] at hRun

end Program

/-- The events of a run of a session, from first to last. -/
def Session.events (session : Session C) (g : Grammar) (c : C) : List Event :=
  match session.program.observed g c (session.opened c) with
  | some (_, events) => events
  | none => []

/-- A run of a session, with its events. -/
theorem Session.observed_of_parse {session next : Session C} {g : Grammar} {c : C}
    {report : Report C} (hParse : session.parse g c = some (report, next)) :
    ∃ s, session.program.observed g c (session.opened c) =
      some ((report.result, s), session.events g c) ∧
        next = { session with state := closed s report.result } := by
  obtain ⟨s, hRun, -, rfl⟩ := parse_eq_some_iff.mp hParse
  rw [← Program.parser_observed] at hRun
  obtain ⟨events, hObserved⟩ := ObservedRun.run_eq_some_iff.mp hRun
  refine ⟨s, ?_, rfl⟩
  unfold Session.events
  rw [hObserved]

end

end Packrat

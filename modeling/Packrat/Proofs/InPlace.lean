import Packrat.Grammar.Number
import Packrat.Proofs.Results
import Packrat.Proofs.Scanning

/-!
# Failures in place

A sequence or a repetition fails where its part does, which may be far ahead of its start.
What reads a single token or a single run of them, and what turns back to its start where a
part has failed, reports every failure at the start. This is kept by all that only works over
the value or the labels, by stored results, and by names that stand for such grammars, even
where these are recursive.

* `ParseError.ReportedAt`: a failure is reported at a cursor;
* `Parser.FailsInPlace`, `Parser.Succeeds`: every failure is reported at the start, and there
  is none, with one lemma for every way to build a parser;
* `Grammar.Certain`, `Grammar.InPlace`: the grammars that never fail, and those that fail in
  place if the grammars of some names do;
* `Grammar.classes`: the classes of characters;
* `Grammar.InPlace.failsInPlace`, `Program.failsInPlace_level`: their parsers do, by induction
  on the grammar, and then by induction on the depth of references;
* `Session.FailuresInPlace`, `Session.Reachable.failuresInPlace`: what this means for the runs
  of a session.
-/

namespace Packrat

open Input List

variable {C τ σ α β : Type} [Input C τ σ]

/-- A failure is reported at a cursor. -/
structure ParseError.ReportedAt (c : C) (e : ParseError C) : Prop where
  remaining_eq : e.remaining = c
  position_eq : e.position = Input.position c

namespace ParseError

theorem reportedAt_new (c : C) (reason : Reason) : (new c reason).ReportedAt c :=
  ⟨rfl, rfl⟩

theorem reportedAt_moveTo (e : ParseError C) (c : C) : (e.moveTo c).ReportedAt c :=
  ⟨rfl, rfl⟩

theorem ReportedAt.expecting {c : C} {e : ParseError C} (h : e.ReportedAt c) (name : String) :
    (e.expecting name).ReportedAt c :=
  ⟨h.remaining_eq, h.position_eq⟩

theorem reportedAt_unfit [Token τ] (c : C) : (Parser.unfit c).ReportedAt c := by
  obtain ⟨hRemaining, hPosition, -⟩ := Parser.unfit_remaining c
  exact ⟨hRemaining, hPosition⟩

end ParseError

/-- A failure, if there is one, is reported at a cursor. -/
def Result.InPlace (c : C) : Result C α → Prop :=
  cases (fun e => e.ReportedAt c) fun _ _ => True

/-! ## Parsers -/

namespace Parser

/-- Every failure of a parser is reported where the parser started. -/
def FailsInPlace (p : Parser C α) : Prop :=
  ∀ ⦃c st r s⦄, p c st = some (r, s) → r.InPlace c

/-- A parser returns a value at every cursor, and does nothing to the state. -/
def Succeeds (p : Parser C α) : Prop :=
  ∀ c, ∃ v d, p c = Run.stop (.ok (v, d))

variable {p q : Parser C α}

namespace Succeeds

omit [Input C τ σ] in
theorem map (h : Succeeds p) (f : α → β) : Succeeds (map f p) := by
  intro c
  obtain ⟨v, d, hStop⟩ := h c
  exact ⟨f v, d, by rw [map_eq, hStop]; rfl⟩

omit [Input C τ σ] in
theorem pure (v : α) : Succeeds (Parser.pure v : Parser C α) :=
  fun c => ⟨v, c, rfl⟩

theorem takeWhile (test : τ → Bool) : Succeeds (takeWhile test : Parser C σ) :=
  fun _ => ⟨_, _, rfl⟩

theorem skipWhile (test : τ → Bool) : Succeeds (skipWhile test : Parser C Unit) :=
  fun _ => ⟨_, _, rfl⟩

/-- A repetition of single tokens ends with the token that it does not take, and never with a
failure. -/
theorem skipMany [InputView C τ σ] [Token τ] [LawfulInput C] {test : τ → Bool}
    {value : τ → α} {failure : C → ParseError C} (h : p.TakesOne test value failure) :
    Succeeds (skipMany p) := by
  unfold Parser.skipMany
  rw [fold_eq_map_many]
  refine map (fun c => ?_) _
  obtain ⟨d, -, hRun⟩ := h.many c
  exact ⟨_, d, hRun⟩

end Succeeds

namespace FailsInPlace

theorem of_succeeds (h : Succeeds p) : FailsInPlace p := by
  intro c st r s hRun
  obtain ⟨v, d, hStop⟩ := h c
  rw [hStop] at hRun
  cases hRun
  trivial

theorem silent : FailsInPlace (silent : Parser C α) :=
  fun _ _ _ _ hRun => nomatch hRun

/-- What is made of a result is what can fail. -/
theorem onResult {f : C → Result C α → Result C β}
    (h : ∀ ⦃c st r s⦄, p c st = some (r, s) → (f c r).InPlace c) :
    FailsInPlace (onResult f p) := by
  intro c st r s hRun
  rw [onResult_eq, Run.followedBy_eq_some_iff] at hRun
  obtain ⟨r₁, s₁, hFirst, hStop⟩ := hRun
  cases hStop
  exact h hFirst

theorem map (h : FailsInPlace p) (f : α → β) : FailsInPlace (map f p) := by
  refine onResult fun c st r s hRun => ?_
  rcases r with e | ⟨v, d⟩
  · exact h hRun
  · trivial

theorem label (h : FailsInPlace p) (name : String) : FailsInPlace (label name p) := by
  refine onResult fun c st r s hRun => ?_
  rcases r with e | ⟨v, d⟩
  · exact (h hRun : e.ReportedAt c).expecting name
  · trivial

/-- A failure ahead is moved back. -/
theorem lexeme (name : String) (p : Parser C α) : FailsInPlace (lexeme name p) := by
  refine onResult fun c st r s _ => ?_
  rcases r with e | ⟨v, d⟩
  · exact (e.reportedAt_moveTo c).expecting name
  · trivial

theorem convert (h : FailsInPlace p) (name : String) (reason : Reason) (f : α → Option β) :
    FailsInPlace (convert name reason f p) := by
  refine onResult fun c st r s hRun => ?_
  rcases r with e | ⟨v, d⟩
  · exact h hRun
  · dsimp only
    rcases f v with _ | w
    · exact (ParseError.reportedAt_new c reason).expecting name
    · trivial

theorem optional (p : Parser C α) : FailsInPlace (optional p) := by
  refine onResult fun c st r s _ => ?_
  rcases r with e | ⟨v, d⟩ <;> trivial

theorem option (default : α) (p : Parser C α) : FailsInPlace (option default p) := by
  refine onResult fun c st r s _ => ?_
  rcases r with e | ⟨v, d⟩ <;> trivial

theorem notFollowedBy (p : Parser C α) : FailsInPlace (notFollowedBy p) := by
  refine onResult fun c st r s _ => ?_
  rcases r with e | ⟨v, d⟩
  · trivial
  · exact ParseError.reportedAt_new c _

/-- Both alternatives have failed, and what is reported is where they were tried. -/
theorem orElse (p q : Parser C α) : FailsInPlace (orElse p q) := by
  intro c st r s hRun
  rw [orElse_eq, Run.followedBy_eq_some_iff] at hRun
  obtain ⟨first | ⟨v, d⟩, s₁, -, hNext⟩ := hRun
  · rw [Result.cases_error, Run.noting, Run.followedBy_eq_some_iff] at hNext
    obtain ⟨second | ⟨v, d⟩, s₂, -, hStop⟩ := hNext
    · cases hStop
      exact ⟨rfl, rfl⟩
    · cases hStop
      trivial
  · cases hNext
    trivial

theorem tally (h : FailsInPlace p) (name : String) : FailsInPlace (tally name p) :=
  fun _ _ _ _ hRun => h hRun

theorem inFreshScope (h : FailsInPlace p) : FailsInPlace (inFreshScope p) := by
  intro c st r s hRun
  obtain ⟨s₁, hFirst, -⟩ := inFreshScope_eq_some_iff.mp hRun
  exact h hFirst

/-! ### Tokens -/

theorem take (n : Nat) : FailsInPlace (take n : Parser C σ) := by
  intro c st r s hRun
  unfold Parser.take at hRun
  split at hRun
  · cases hRun
    trivial
  · cases hRun
    exact ParseError.reportedAt_new c _

variable [Token τ]

theorem satisfy (test : τ → Bool) : FailsInPlace (satisfy test : Parser C τ) := by
  intro c st r s hRun
  unfold Parser.satisfy at hRun
  split at hRun
  · split at hRun
    · cases hRun
      trivial
    · cases hRun
      exact ParseError.reportedAt_new c _
  · cases hRun
    exact ParseError.reportedAt_new c _

theorem skipIf (test : τ → Bool) : FailsInPlace (skipIf test : Parser C Unit) := by
  rw [Coupling.Simulates.skipIf_eq_replace]
  exact (satisfy test).map _

theorem endOfInput : FailsInPlace (endOfInput : Parser C Unit) := by
  intro c st r s hRun
  unfold Parser.endOfInput at hRun
  split at hRun
  · cases hRun
    exact (ParseError.reportedAt_new c _).expecting _
  · cases hRun
    trivial

theorem takeWhile1 (test : τ → Bool) : FailsInPlace (takeWhile1 test : Parser C σ) := by
  intro c st r s hRun
  unfold Parser.takeWhile1 at hRun
  dsimp only at hRun
  split at hRun
  · cases hRun
    exact ParseError.reportedAt_unfit c
  · cases hRun
    trivial

/-- However much of a literal is there, a failure is reported where it should start. -/
theorem literal (text : String) : FailsInPlace (literal text : Parser C String) := by
  intro c st r s hRun
  unfold Parser.literal at hRun
  split at hRun
  · cases hRun
    trivial
  · cases hRun
    exact (ParseError.reportedAt_new c _).expecting _

theorem literalAnyCase (text : String) : FailsInPlace (literalAnyCase text : Parser C σ) := by
  intro c st r s hRun
  unfold Parser.literalAnyCase at hRun
  split at hRun
  · cases hRun
    trivial
  · cases hRun
    exact (ParseError.reportedAt_new c _).expecting _

end FailsInPlace

end Parser

/-! ## Grammars -/

namespace Grammar

/-- The grammars without parts that never fail. -/
inductive Certain : Grammar → Prop
  | pure (v : Value) : Certain (.pure v)
  | takeWhile (test : Char → Bool) : Certain (.takeWhile test)
  | skipWhile (test : Char → Bool) : Certain (.skipWhile test)
  | skipSpaces : Certain .skipSpaces

/-- The grammars that report every failure where they start, if the grammars of the given
names do. The parts of a choice, of what may be missing and of what must not follow can be
any grammars. -/
inductive InPlace (names : Reference → Prop) : Grammar → Prop
  | certain {g : Grammar} (h : g.Certain) : InPlace names g
  | satisfy (test : Char → Bool) : InPlace names (.satisfy test)
  | skipIf (test : Char → Bool) : InPlace names (.skipIf test)
  | endOfInput : InPlace names .endOfInput
  | take (n : Nat) : InPlace names (.take n)
  | takeWhile1 (test : Char → Bool) : InPlace names (.takeWhile1 test)
  | literal (text : String) : InPlace names (.literal text)
  | literalAnyCase (text : String) : InPlace names (.literalAnyCase text)
  | integer : InPlace names .integer
  | number : InPlace names .number
  | orElse (g h : Grammar) : InPlace names (.orElse g h)
  | optional (g : Grammar) : InPlace names (.optional g)
  | option (default : Value) (g : Grammar) : InPlace names (.option default g)
  | notFollowedBy (g : Grammar) : InPlace names (.notFollowedBy g)
  | map (f : Value → Value) {g : Grammar} (h : InPlace names g) : InPlace names (.map f g)
  | label (name : String) {g : Grammar} (h : InPlace names g) : InPlace names (.label name g)
  | memo {g : Grammar} (h : InPlace names g) : InPlace names (.memo g)
  | fresh {g : Grammar} (h : InPlace names g) : InPlace names (.fresh g)
  | tally (name : String) {g : Grammar} (h : InPlace names g) : InPlace names (.tally name g)
  | call {x : Reference} (h : names x) : InPlace names (.call x)

/-- The grammars of a character, of the members of a set, and of the classes that have a
name. -/
def classes (x : Char) (set : String) : List Grammar :=
  [any, char x, notChar x, oneOf set, noneOf set, digit, hexDigit, lower, upper, letter,
    alphaNum, space, endOfLine]

/-- The parsers of the grammars that never fail do not fail. -/
theorem Certain.succeeds [InputView C τ σ] [Token τ] [LawfulInput C] [ToValue τ] [ToValue σ]
    {g : Grammar} (h : g.Certain) (call : Reference → Parser C Value) (a : Address) :
    (g.plain.parser call a).Succeeds := by
  cases h with
  | pure v => exact .pure v
  | takeWhile test => exact (Parser.Succeeds.takeWhile _).map _
  | skipWhile test => exact (Parser.Succeeds.skipWhile _).map fun _ => Value.unit
  | skipSpaces => exact (Parser.Succeeds.skipMany (takesOne_labelled call _ _ _)).map _

namespace InPlace

variable {names : Reference → Prop}

theorem labelled (name : String) (test : Char → Bool) : InPlace names (labelled name test) :=
  .label name (.satisfy test)

theorem replace (v : Value) {g : Grammar} (h : InPlace names g) : InPlace names (replace v g) :=
  .map _ h

theorem classes (x : Char) (set : String) : ∀ g ∈ classes x set, InPlace names g := by
  simp only [Grammar.classes, forall_mem_cons]
  exact ⟨.satisfy _, labelled _ _, labelled _ _, labelled _ _, labelled _ _, labelled _ _,
    labelled _ _, labelled _ _, labelled _ _, .orElse _ _, .orElse _ _, labelled _ _,
    .orElse _ _, forall_mem_nil _⟩

/-- Where nothing is stored, a grammar fails in place if those of the names do. -/
theorem failsInPlace [InputView C τ σ] [Token τ] [LawfulInput C] [ToValue τ] [ToValue σ]
    {call : Reference → Parser C Value} {g : Grammar} (h : InPlace names g)
    (hCall : ∀ x, names x → (call x).FailsInPlace) (a : Address) :
    (g.plain.parser call a).FailsInPlace := by
  induction h generalizing a with
  | certain h => exact .of_succeeds (h.succeeds call a)
  | satisfy test => exact (Parser.FailsInPlace.satisfy _).map _
  | skipIf test => exact (Parser.FailsInPlace.skipIf _).map _
  | endOfInput => exact Parser.FailsInPlace.endOfInput.map _
  | take n => exact (Parser.FailsInPlace.take n).map _
  | takeWhile1 test => exact (Parser.FailsInPlace.takeWhile1 _).map _
  | literal text => exact (Parser.FailsInPlace.literal text).map _
  | literalAnyCase text => exact (Parser.FailsInPlace.literalAnyCase text).map _
  | integer => exact (Parser.FailsInPlace.lexeme _ _).convert _ _ _
  | number => exact .lexeme _ _
  | orElse g h => exact .orElse _ _
  | optional g => exact (Parser.FailsInPlace.optional _).map _
  | option default g => exact .option _ _
  | notFollowedBy g => exact (Parser.FailsInPlace.notFollowedBy _).map _
  | map f _ ih => exact (ih a).map f
  | label name _ ih => exact (ih a).label name
  | memo _ ih => exact ih a
  | fresh _ ih => exact ih a
  | tally name _ ih => exact (ih a).tally name
  | call hName => exact hCall _ hName

end InPlace

end Grammar

/-! ## Programs and sessions -/

section

variable [InputView C τ σ] [Token τ] [LawfulInput C] [ToValue τ] [ToValue σ]
  {names : Reference → Prop}

namespace Program

variable {P : Program}

/-- Names whose grammars fail in place, if the names do, fail in place at every depth. -/
theorem failsInPlace_level (hNames : ∀ x g, names x → P.find? x = some g → g.InPlace names)
    (n : Nat) : ∀ x, names x → (P.plain.level (C := C) n x).FailsInPlace := by
  induction n with
  | zero => exact fun x _ => .silent
  | succ n ih =>
    intro x hx
    cases x with
    | rule name =>
      unfold level plain
      rw [lookup_map Grammar.plain]
      rcases hName : P.rules.lookup name with _ | g
      · exact .silent
      · exact ((hNames _ g hx hName).failsInPlace ih .fresh).inFreshScope
    | shared name =>
      unfold level plain
      rw [lookup_map Grammar.plain]
      rcases hName : P.shared.lookup name with _ | g
      · exact .silent
      · exact (hNames _ g hx hName).failsInPlace ih (.named name)

theorem Yields.inPlace {g : Grammar} {c : C} {r : Result C Value} (h : P.Yields g c r)
    (hNames : ∀ x g, names x → P.find? x = some g → g.InPlace names) (hg : g.InPlace names) :
    r.InPlace c := by
  obtain ⟨n, s, hRun⟩ := h
  exact hg.failsInPlace (failsInPlace_level hNames n) .fresh hRun

end Program

/-- A grammar that never fails yields a value at every depth of references. -/
theorem Grammar.Certain.exists_yields {g : Grammar} (h : g.Certain) (P : Program) (c : C) :
    ∃ v d, P.Yields g c (.ok (v, d)) := by
  obtain ⟨v, d, hStop⟩ := h.succeeds (P.plain.level 0) .fresh c
  exact ⟨v, d, 0, {}, congrFun hStop {}⟩

namespace Session

variable [LawfulToken τ] {memory : Nat → List τ} {session : Session C} {c : C}

/-- Where the runs of a session from a cursor fail, and which of them do not. -/
structure FailuresInPlace (session : Session C) (c : C) : Prop where
  inPlace : ∀ names : Reference → Prop,
    (∀ x g, names x → session.program.find? x = some g → g.InPlace names) →
    ∀ g e, g.InPlace names → session.result? g c = some (.error e) → e.ReportedAt c
  classes : ∀ names x set, ∀ g ∈ Grammar.classes x set, g.InPlace names
  replace : ∀ names v g, g.InPlace names → (Grammar.replace v g).InPlace names
  /-- These return a value whatever comes. -/
  certain : ∀ g, g.Certain → ∃ v d, session.result? g c = some (.ok (v, d))
  /-- These return a value where their part returns, and that one may fail. -/
  optional : ∀ g, session.result? (.optional g) c = (session.result? g c).map fun r =>
    .ok (r.cases (fun _ => (.none, c)) fun v d => (.some v, d))
  option : ∀ default g, session.result? (.option default g) c = (session.result? g c).map fun r =>
    .ok (r.cases (fun _ => (default, c)) fun v d => (v, d))

namespace Reachable

theorem result?_optional (h : session.Reachable memory) (hMemory : InMemory memory c)
    (g : Grammar) : session.result? (.optional g) c = (session.result? g c).map fun r =>
      .ok (r.cases (fun _ => (.none, c)) fun v d => (.some v, d)) := by
  rw [Option.map_eq_bind]
  refine h.result?_eq_bind hMemory fun n r _ => Program.yieldsAt_optional_iff.trans ?_
  refine exists_congr fun r₁ => and_congr_right fun _ => ?_
  rcases r₁ with e | ⟨v, d⟩ <;> simp [eq_comm]

theorem result?_option (h : session.Reachable memory) (hMemory : InMemory memory c)
    (default : Value) (g : Grammar) :
    session.result? (.option default g) c = (session.result? g c).map fun r =>
      .ok (r.cases (fun _ => (default, c)) fun v d => (v, d)) := by
  rw [Option.map_eq_bind]
  refine h.result?_eq_bind hMemory fun n r _ => Program.yieldsAt_option_iff.trans ?_
  refine exists_congr fun r₁ => and_congr_right fun _ => ?_
  rcases r₁ with e | ⟨v, d⟩ <;> simp [eq_comm]

/-- Whatever has been run and forgotten, the grammars that fail in place do so, wherever their
parts have failed. -/
theorem failuresInPlace (h : session.Reachable memory) (hMemory : InMemory memory c) :
    session.FailuresInPlace c where
  inPlace names hNames g e hg hResult :=
    ((h.result?_iff hMemory).mp hResult).inPlace hNames hg
  classes _ := Grammar.InPlace.classes
  replace _ v _ hg := hg.replace v
  certain g hg := by
    obtain ⟨v, d, hYields⟩ := hg.exists_yields session.program c
    exact ⟨v, d, (h.result?_iff hMemory).mpr hYields⟩
  optional := h.result?_optional hMemory
  option := h.result?_option hMemory

end Reachable

end Session

end

/-- A grammar of nested brackets, which names itself and whose failures are stored: they arise
at the last token, and each of them is reported where its bracket stands. -/
theorem Session.failuresInPlace_of_nested :
    ∃ session : Session (SliceCursor Char), session.Reachable (fun _ => ['(', '(', '1']) ∧
      (session.table "nested").size = 3 ∧
      session.FailuresInPlace (.ofSource ⟨0, #['(', '(', '1']⟩) ∧
      ∃ e, session.result? (.call (.shared "nested")) (.ofSource ⟨0, #['(', '(', '1']⟩) =
        some (.error e) ∧ e.ReportedAt (.ofSource ⟨0, #['(', '(', '1']⟩) := by
  let body : Grammar := .memo (.orElse
    (.seqRight (.char '(') (.seqLeft (.call (.shared "nested")) (.char ')')))
    (.label "word" (.takeWhile1 Char.isAlpha)))
  let program : Program := { shared := [("nested", body)] }
  obtain ⟨report, session, hParse, hProgram, hSize, e, hError⟩ : ∃ report session,
      ({ program } : Session (SliceCursor Char)).parse (.call (.shared "nested"))
        (.ofSource ⟨0, #['(', '(', '1']⟩) = some (report, session) ∧
      session.program = program ∧ (session.table "nested").size = 3 ∧
      ∃ e, session.result? (.call (.shared "nested")) (.ofSource ⟨0, #['(', '(', '1']⟩) =
        some (.error e) := ⟨_, _, rfl, rfl, rfl, _, rfl⟩
  have hSession : session.Reachable (fun _ => ['(', '(', '1']) :=
    .parse (.start program) ⟨[], rfl⟩ hParse
  have hFailures := hSession.failuresInPlace (c := .ofSource ⟨0, #['(', '(', '1']⟩) ⟨[], rfl⟩
  refine ⟨session, hSession, hSize, hFailures, e, hError,
    hFailures.inPlace (· = .shared "nested") ?_ _ e (.call rfl) hError⟩
  rintro x g rfl hName
  rw [hProgram] at hName
  obtain rfl : body = g := Option.some_inj.mp hName
  exact .memo (.orElse _ _)

end Packrat

import Packrat.Proofs.Primitive
import Packrat.Proofs.Sessions

/-!
# Repetitions that stall

The failures that repetitions create in a run because a round of theirs has succeeded
where it started, in the order in which they are created. They are found by following the
grammar along the run: into alternatives that are given up later, into the last round of
a repetition, which fails, and not into a parser whose result is stored. Whatever becomes
of these failures, the run has one warning for each of them, with its position, and no
other warnings.

* `Stalls`: the failures of stalled repetitions, by the state in which a run starts;
* `Grammar.stalls`, `Program.stalls`, `Session.stalls`: those of a run of a grammar;
* `Run.Warns`: the warnings of a run are those of its stalled repetitions, with one lemma
  for every way to build a parser;
* `Grammar.warns`, `Program.warns`: this holds of every grammar, by induction on it.
-/

namespace Packrat

open Input

variable {C τ σ α β γ : Type} {c : C}

/-- The failures of the repetitions that stall in a run, by the state in which it starts. -/
abbrev Stalls (C : Type) := State C → List (ParseError C)

namespace Stalls

/-- Those of a run, and then those of the one that its result leads to. -/
def followedBy (x : Run C α) (f : Stalls C) (next : Result C α → Stalls C) : Stalls C :=
  fun st => f st ++ (x st).elim [] fun y => next y.1 y.2

/-- Those of a parser, and then those of what its value leads to. -/
def andThen (p : Parser C α) (f : C → Stalls C) (next : α → C → Stalls C) (c : C) : Stalls C :=
  followedBy (p c) (f c) (Result.cases (fun _ _ => []) next)

def inFreshScope (f : C → Stalls C) (c : C) : Stalls C :=
  fun st => f c { st with current := ∅ }

def tally (name : String) (f : C → Stalls C) (c : C) : Stalls C :=
  fun st => f c (st.tally name)

section

variable [Input C τ σ]

/-- The second alternative is run where the first one has failed. -/
def orElse (p : Parser C α) (f g : C → Stalls C) (c : C) : Stalls C :=
  followedBy (p c) (f c) (Result.cases
    (fun e st => g c (st.note (.backtracked (position c) e.position))) fun _ _ _ => [])

/-- Those of the rounds, and the one of the repetition itself if a round ends where it
started. -/
def foldFrom (p : Parser C α) (f : C → Stalls C) : Nat → C → Stalls C
  | 0, _ => fun _ => []
  | n + 1, c => andThen p f (fun _ d =>
      if position c < position d then foldFrom p f n d
      else fun _ => [.new c .noProgress]) c

def fold (p : Parser C α) (f : C → Stalls C) (c : C) : Stalls C :=
  foldFrom p f (left c + 1) c

def fold1 (p : Parser C α) (f : C → Stalls C) (c : C) : Stalls C :=
  andThen p f (fun _ d =>
    if position c < position d then fold p f d else fun _ => [.new c .noProgress]) c

/-- Where a result is stored, nothing is run. -/
def memo (a : Address) (f : C → Stalls C) (c : C) : Stalls C :=
  fun st => (st.lookup a (place c)).elim (f c st) fun _ => []

end

end Stalls

/-! ## Warnings -/

/-- The warning that a stalled repetition calls for. -/
def ParseError.warning (e : ParseError C) : Record :=
  .stalled e.position

/-- The warnings among some entries. -/
def Record.warnings (entries : List Record) : List Record :=
  entries.filter fun x => x.level = .warn

theorem Record.warnings_append (s t : List Record) :
    warnings (s ++ t) = warnings s ++ warnings t := by
  unfold warnings
  exact List.filter_append s t

/-- The warnings of a run are those that its stalled repetitions call for, in this order. -/
def Run.Warns (x : Run C α) (f : Stalls C) : Prop :=
  ∀ ⦃st s r⦄, x st = some (r, s) → ∃ entries, s.log.reverse = st.log.reverse ++ entries ∧
    Record.warnings entries = (f st).map ParseError.warning

/-- The same for the runs of a parser, at every cursor. -/
def Parser.Warns (p : Parser C α) (f : C → Stalls C) : Prop :=
  ∀ c, Run.Warns (p c) (f c)

namespace Run.Warns

variable {x : Run C α} {f : Stalls C} {next : Result C α → Run C β} {g : Result C α → Stalls C}

theorem stop (r : Result C α) : Warns (.stop r) fun _ => [] := by
  intro st s r' h
  cases h
  exact ⟨[], (List.append_nil _).symm, rfl⟩

theorem followedBy (h : Warns x f) (hNext : ∀ r, Warns (next r) (g r)) :
    Warns (x.followedBy next) (.followedBy x f g) := by
  intro st s r hRun
  obtain ⟨r₁, s₁, hx, hRest⟩ := followedBy_eq_some_iff.mp hRun
  obtain ⟨first, hFirst, hWarnings⟩ := h hx
  obtain ⟨rest, hSecond, hWarnings'⟩ := hNext r₁ hRest
  refine ⟨first ++ rest, by rw [hSecond, hFirst, List.append_assoc], ?_⟩
  rw [Record.warnings_append, hWarnings, hWarnings', ← List.map_append, Stalls.followedBy, hx]
  rfl

/-- What is made of the result at once adds no warning. -/
theorem thenStop (h : Warns x f) (after : Result C α → Result C β) :
    Warns (x.followedBy fun r => .stop (after r)) f := by
  have hEq : f = .followedBy x f fun _ _ => [] := by
    funext st
    unfold Stalls.followedBy
    rcases x st with _ | y
    · exact (List.append_nil _).symm
    · exact (List.append_nil _).symm
  rw [hEq]
  exact h.followedBy fun r => stop _

/-- An entry that is no warning. -/
theorem noting {entry : Record} (h : Warns x f) (hEntry : entry.level ≠ .warn) :
    Warns (.noting entry x) fun st => f (st.note entry) := by
  intro st s r hRun
  obtain ⟨entries, hLog, hWarnings⟩ := h hRun
  refine ⟨entry :: entries, by simp [hLog, State.note], ?_⟩
  rw [← hWarnings]
  simp [Record.warnings, hEntry]

end Run.Warns

namespace Parser.Warns

open Run

variable {p : Parser C α} {q : Parser C β} {f g : C → Stalls C}

theorem silent {f : C → Stalls C} : Warns (silent : Parser C α) f := by
  intro c st s r h
  cases h

theorem onResult (h : Warns p f) (after : C → Result C α → Result C β) :
    Warns (.onResult after p) f := by
  intro c
  rw [onResult_eq]
  exact (h c).thenStop (after c)

theorem map (h : Warns p f) (k : α → β) : Warns (.map k p) f :=
  h.onResult _

theorem bind (h : Warns p f) {k : α → Parser C β} {next : α → C → Stalls C}
    (hNext : ∀ v, Warns (k v) (next v)) : Warns (.bind p k) (.andThen p f next) := by
  intro c
  rw [bind_eq]
  refine (h c).followedBy fun r => ?_
  rcases r with e | ⟨v, d⟩
  · exact .stop _
  · exact hNext v d

theorem map_both (h : Warns p f) (h' : Warns q g) (k : α × β → γ) :
    Warns (.map k (.both p q)) (.andThen p f fun _ => g) := by
  rw [map_both_eq]
  exact h.bind fun v => h'.map _

theorem marked (h : Warns p f) (h' : Warns q g) (default : β) :
    Warns (.marked default p q) (.andThen p f fun _ => g) := by
  intro c
  rw [marked_eq]
  refine (h c).followedBy fun r => ?_
  rcases r with e | ⟨v, d⟩
  · exact .stop _
  · exact h' d

theorem tally (h : Warns p f) (name : String) : Warns (.tally name p) (.tally name f) :=
  fun c _ _ _ hRun => h c hRun

theorem inFreshScope (h : Warns p f) : Warns (.inFreshScope p) (.inFreshScope f) := by
  intro c st s r hRun
  obtain ⟨s₁, hp, rfl⟩ := inFreshScope_eq_some_iff.mp hRun
  exact h c hp

variable [Input C τ σ]

theorem orElse {q : Parser C α} (h : Warns p f) (h' : Warns q g) :
    Warns (.orElse p q) (.orElse p f g) := by
  intro c
  rw [orElse_eq]
  refine (h c).followedBy fun r => ?_
  rcases r with e | ⟨v, d⟩
  · exact ((h' c).thenStop _).noting Level.noConfusion
  · exact .stop _

/-- The only entry that is a warning. -/
theorem stalled (c : C) : Run.Warns (stalled c : Run C α) fun _ => [.new c .noProgress] := by
  intro st s r h
  cases h
  exact ⟨[.stalled (position c)], by simp [State.note], rfl⟩

/-- Each round but the last one is followed by the others, by induction on the bound. -/
theorem foldFrom (h : Warns p f) (combine : β → α → β) (n : Nat) :
    ∀ acc c, Run.Warns (Parser.foldFrom combine p n acc c) (.foldFrom p f n c) := by
  induction n with
  | zero =>
    intro acc c st s r hRun
    cases hRun
  | succ n ih =>
    intro acc c
    rw [foldFrom_succ]
    refine (h c).followedBy fun r => ?_
    rcases r with e | ⟨v, d⟩
    · exact .stop _
    · simp only [Result.cases_ok]
      split
      · exact ih _ d
      · exact stalled c

theorem fold (h : Warns p f) (combine : β → α → β) (start : β) :
    Warns (.fold combine start p) (.fold p f) :=
  fun c => h.foldFrom combine _ start c

theorem fold1 (h : Warns p f) (combine : β → α → β) (start : β) :
    Warns (.fold1 combine start p) (.fold1 p f) := by
  intro c
  rw [fold1_eq]
  refine (h c).followedBy fun r => ?_
  rcases r with e | ⟨v, d⟩
  · exact .stop _
  · simp only [Result.cases_ok]
    split
    · exact h.fold combine _ d
    · exact stalled c

theorem memo {p : Parser C Value} (h : Warns p f) (a : Address) :
    Warns (.memo a p) (.memo a f) := by
  intro c st s r hRun
  unfold Stalls.memo
  rcases memo_eq_some_iff.mp hRun with ⟨hLookup, rfl⟩ | ⟨hLookup, s₁, hp, rfl⟩
  · rw [hLookup]
    exact ⟨[.memoHit (position c)], by simp [State.note], rfl⟩
  · obtain ⟨entries, hLog, hWarnings⟩ := h c hp
    rw [hLookup]
    refine ⟨entries, ?_, hWarnings⟩
    obtain ⟨scope, path⟩ := a
    cases scope <;> exact hLog

end Parser.Warns

/-! ## Grammars -/

section

variable [Input C τ σ] [Token τ] [ToValue τ] [ToValue σ]

/-- The stalled repetitions in the parser of a grammar at an address. -/
def Grammar.stalls (call : Reference → Parser C Value) (stallsOf : Reference → C → Stalls C) :
    Grammar → Address → C → Stalls C
  | map _ g, a | convert _ _ _ g, a | label _ g, a | lexeme _ g, a | optional g, a
  | option _ g, a | notFollowedBy g, a => g.stalls call stallsOf a
  | both g h, a | seqRight g h, a | seqLeft g h, a | apply g h, a | marked _ g h, a =>
    .andThen (g.parser call (a.turn .left)) (g.stalls call stallsOf (a.turn .left))
      fun _ => h.stalls call stallsOf (a.turn .right)
  | bind g k, a =>
    .andThen (g.parser call a) (g.stalls call stallsOf a)
      fun v => .inFreshScope ((k v).stalls call stallsOf .fresh)
  | orElse g h, a =>
    .orElse (g.parser call (a.turn .left)) (g.stalls call stallsOf (a.turn .left))
      (h.stalls call stallsOf (a.turn .right))
  | many g, a | skipMany g, a => .fold (g.parser call a) (g.stalls call stallsOf a)
  | many1 g, a | skipMany1 g, a => .fold1 (g.parser call a) (g.stalls call stallsOf a)
  | memo g, a => .memo a (g.stalls call stallsOf (a.turn .inside))
  | fresh g, _ => .inFreshScope (g.stalls call stallsOf .fresh)
  | .call r, _ => stallsOf r
  | tally name g, a => .tally name (g.stalls call stallsOf a)
  -- The grammars without parts repeat nothing that can stall.
  | _, _ => fun _ _ => []

namespace Program

/-- The stalled repetitions in the parser of a name, in which references are followed to
the given depth. -/
def stallsLevel (P : Program) : Nat → Reference → C → Stalls C
  | 0, _ => fun _ _ => []
  | n + 1, .rule name => match P.rules.lookup name with
    | some g => .inFreshScope (g.stalls (P.level n) (P.stallsLevel n) .fresh)
    | none => fun _ _ => []
  | n + 1, .shared name => match P.shared.lookup name with
    | some g => g.stalls (P.level n) (P.stallsLevel n) (.named name)
    | none => fun _ _ => []

/-- The stalled repetitions in a run of a grammar. -/
def stalls (P : Program) (g : Grammar) : C → Stalls C :=
  .inFreshScope fun c => g.stalls (P.level (P.depth c)) (P.stallsLevel (P.depth c)) .fresh c

end Program

variable {call : Reference → Parser C Value} {stallsOf : Reference → C → Stalls C}

variable [InputView C τ σ] [LawfulInput C]

namespace Grammar

/-- A grammar without parts has nothing to warn of. -/
theorem warns_primitive {g : Grammar} {f : List τ → Peg.Outcome τ}
    (hPrimitive : Peg.primitive? (sliceValue C) g = some f) (a : Address) :
    (g.parser call a).Warns fun _ _ => [] := by
  intro c
  obtain ⟨r, hStop⟩ := Peg.parser_eq_stop hPrimitive c
  rw [hStop]
  exact .stop r

/-- The warnings in a run of a grammar, by induction on the grammar. -/
theorem warns (hCall : ∀ r, (call r).Warns (stallsOf r)) (g : Grammar) :
    ∀ a, (g.parser call a).Warns (g.stalls call stallsOf a) := by
  induction g with
  | pure | satisfy | skipIf | endOfInput | take | takeWhile | takeWhile1 | skipWhile | literal
  | literalAnyCase => exact fun a => warns_primitive rfl a
  | map f g ih => exact fun a => (ih a).map f
  | convert name reason f g ih => exact fun a => (ih a).onResult _
  | both g h ihg ihh => exact fun a => (ihg _).map_both (ihh _) _
  | seqRight g h ihg ihh => exact fun a => (ihg _).map_both (ihh _) Prod.snd
  | seqLeft g h ihg ihh => exact fun a => (ihg _).map_both (ihh _) Prod.fst
  | apply g h ihg ihh =>
    intro a
    unfold parser
    rw [Parser.apply_map_eq]
    exact (ihg _).map_both (ihh _) _
  | bind g k ihg ihk => exact fun a => (ihg a).bind fun v => (ihk v .fresh).inFreshScope
  | orElse g h ihg ihh => exact fun a => (ihg _).orElse (ihh _)
  | label name g ih => exact fun a => (ih a).onResult _
  | lexeme name g ih => exact fun a => (ih a).onResult _
  | optional g ih => exact fun a => ((ih a).onResult _).map _
  | option default g ih => exact fun a => (ih a).onResult _
  | marked default g h ihg ihh => exact fun a => (ihg _).marked (ihh _) default
  | notFollowedBy g ih => exact fun a => ((ih a).onResult _).map _
  | many g ih => exact fun a => (((ih a).fold Parser.push []).map List.reverse).map Value.list
  | many1 g ih => exact fun a => (((ih a).fold1 Parser.push []).map List.reverse).map Value.list
  | skipMany g ih => exact fun a => ((ih a).fold (fun _ _ => ()) ()).map _
  | skipMany1 g ih => exact fun a => ((ih a).fold1 (fun _ _ => ()) ()).map _
  | memo g ih => exact fun a => (ih _).memo a
  | fresh g ih => exact fun a => (ih .fresh).inFreshScope
  | call r => exact fun a => hCall r
  | tally name g ih => exact fun a => (ih a).tally name

end Grammar

namespace Program

theorem warns_level (P : Program) (n : Nat) :
    ∀ r, (P.level n r : Parser C Value).Warns (P.stallsLevel n r) := by
  induction n with
  | zero => exact fun r => .silent
  | succ n ih =>
    intro r
    cases r with
    | rule name =>
      unfold level stallsLevel
      cases P.rules.lookup name with
      | none => exact .silent
      | some g => exact (g.warns ih .fresh).inFreshScope
    | shared name =>
      unfold level stallsLevel
      cases P.shared.lookup name with
      | none => exact .silent
      | some g => exact g.warns ih (.named name)

theorem warns (P : Program) (g : Grammar) : (P.parser g : Parser C Value).Warns (P.stalls g) :=
  Parser.Warns.inFreshScope fun c => g.warns (P.warns_level (P.depth c)) .fresh c

end Program

/-- The stalled repetitions in a run of a session. -/
def Session.stalls (session : Session C) (g : Grammar) (c : C) : List (ParseError C) :=
  session.program.stalls g c (session.opened c)

end

end Packrat

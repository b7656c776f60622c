import Packrat.Proofs.Recoding

/-!
# Pairs of sessions

Two sessions of one program over two kinds of sources, in which the same runs are
made at cursors at the same places. Where one of them gets a result the other one
gets a corresponding result with a corresponding record, and the pair is led on.

The bound on the depth of references depends on the size of the source, which may
not be the same on both sides. This makes no difference, for what a run gives, and
what it stores and records, does not depend on the bound.

* `Program.run_unique`: a run does not depend on the depth;
* `Session.Paired`: pairs of sessions that the same runs lead to;
* `Alignment.Reported`: two reports of corresponding runs;
* `Session.Paired.aligned`: paired sessions keep corresponding tables;
* `Session.Paired.parse_rel`: a run in both of two paired sessions;
* `SameReport`: two reports of runs over a source and over the recoded one.
-/

namespace Packrat

open Input List Packrat.Alignment Coupling

/-! ## Runs and the depth -/

section

variable {C τ σ : Type} [Input C τ σ] [InputView C τ σ] [Token τ] [ToValue τ] [ToValue σ]
  [LawfulInput C] {memory : Nat → List τ} {c : C} {P : Program} {g : Grammar} {m n : Nat}

/-- A cursor in memory stands at the same place as itself. -/
theorem InMemory.cursor (h : InMemory memory c) :
    (recoded (Recoding.id (C := C)) memory).cursor c c :=
  recoded_id_iff.mpr ⟨h, rfl⟩

theorem eq_of_positions {p q : Nat}
    (h : (recoded (Recoding.id (C := C)) memory).Positions c c p q) : p = q := by
  obtain ⟨c₁, c₂, hReaches, rfl, rfl⟩ := h
  obtain ⟨-, rfl⟩ := recoded_id_iff.mp hReaches.cursor
  rfl

theorem Alignment.Outcome.inMemory {r : Result C Value} (hMemory : InMemory memory c)
    (h : (Alignment.diagonal C).Outcome Eq c c r r) :
    (recoded (Recoding.id (C := C)) memory).Outcome Eq c c r r := by
  cases h with
  | ok hValue hReaches =>
    obtain ⟨tokens, hReads⟩ := hReaches.left
    exact .ok hValue ⟨(hReads.inMemory hMemory).cursor, hReaches.left, hReaches.right⟩
  | error hFailure =>
    obtain ⟨tokens, hReads⟩ := hFailure.reaches.left
    exact .error ⟨⟨(hReads.inMemory hMemory).cursor, hFailure.reaches.left,
      hFailure.reaches.right⟩, hFailure.left_position, hFailure.right_position, rfl, rfl⟩

/-- Tables that correspond to each other in one memory hold the same results. -/
theorem Alignment.Tables.lookup_eq {st st' : State C}
    (h : (recoded (Recoding.id (C := C)) memory).Tables st st') (hMemory : InMemory memory c)
    (a : Address) : st.lookup a (place c) = st'.lookup a (place c) := by
  have hRel := h (a := a) hMemory.cursor
  generalize st.lookup a (place c) = x at hRel ⊢
  generalize st'.lookup a (place c) = y at hRel ⊢
  cases hRel with
  | none => rfl
  | some hOut => rw [hOut.eq_of_cursor (fun h => (recoded_id_iff.mp h).2) id]

/-- Two states with the same results for cursors in memory, and the same record. -/
structure SameState (memory : Nat → List τ) (s s' : State C) : Prop where
  lookup : ∀ {c : C}, InMemory memory c → ∀ a, s.lookup a (place c) = s'.lookup a (place c)
  log : s.log = s'.log

variable [LawfulToken τ]

/-- What a session has stored is reached from the places it is stored for. -/
theorem Session.Reachable.tables {session : Session C} (h : session.Reachable memory) :
    (recoded (Recoding.id (C := C)) memory).Tables session.state session.state := by
  intro a c c' hCursor
  obtain ⟨hMemory, rfl⟩ := recoded_id_iff.mp hCursor
  rcases hLookup : session.state.lookup a (place c) with _ | r
  · exact .none
  · obtain ⟨g, -, hYields⟩ := h.sound .endOfInput hMemory hLookup
    exact .some (hYields.outcome.inMemory hMemory)

namespace Program

/-- The names of a program give the same where references are followed deeper. -/
theorem level_mono (P : Program) (hMemory : InMemory memory c) (hLe : m ≤ n) (r : Reference) :
    (lockstep (recoded_matched Recoding.id memory) hMemory.cursor).Simulates Eq (P.level m r)
      (P.level n r) := by
  induction m generalizing n r with
  | zero => exact .silent
  | succ m ih =>
    obtain ⟨n, rfl⟩ := Nat.exists_eq_add_one_of_ne_zero (Nat.ne_zero_of_lt hLe)
    exact P.alike_self.simulates_succ (fun _ => lockstep_memo) lockstep_inFreshScope
      (ih (Nat.le_of_succ_le_succ hLe)) r

theorem run_mono {session : Session C} (h : session.Reachable memory)
    (hMemory : InMemory memory c) (hLe : m ≤ n) {r : Result C Value} {s : State C}
    (hRun : Parser.inFreshScope (g.parser (P.level m) .fresh) c (session.opened c) =
      some (r, s)) :
    ∃ s', Parser.inFreshScope (g.parser (P.level n) .fresh) c (session.opened c) =
      some (r, s') ∧ SameState memory s s' := by
  have hSim := g.alike_self.simulates (P.level_mono hMemory hLe) (fun _ => lockstep_memo)
    lockstep_inFreshScope .fresh .fresh fun _ => rfl
  have hState : (lockstep (recoded_matched Recoding.id memory) hMemory.cursor).state
      (session.opened c) (session.opened c) :=
    ⟨(h.tables.setLog [] []).note _ _, .cons (.entered (Reaches.refl hMemory.cursor).positions) .nil⟩
  obtain ⟨r', s', hRun', hOut, hTables, hLog⟩ :=
    lockstep_inFreshScope hSim ⟨[], .refl c⟩ hMemory.cursor hState hRun
  obtain rfl : r = r' := hOut.eq_of_cursor (fun h => (recoded_id_iff.mp h).2) id
  refine ⟨s', hRun', fun hMemory' a => hTables.lookup_eq hMemory' a, ?_⟩
  refine forall₂_eq_eq_eq ▸ hLog.imp fun x y hShifted => ?_
  exact (hShifted.mono fun p q => eq_of_positions).eq

/-- A run that has a result has the same one at any other depth where it has one,
with the same results stored and the same record. -/
theorem run_unique {session : Session C} (h : session.Reachable memory)
    (hMemory : InMemory memory c) {r r' : Result C Value} {s s' : State C}
    (hRun : Parser.inFreshScope (g.parser (P.level m) .fresh) c (session.opened c) =
      some (r, s))
    (hRun' : Parser.inFreshScope (g.parser (P.level n) .fresh) c (session.opened c) =
      some (r', s')) :
    r = r' ∧ SameState memory s s' := by
  rcases Nat.le_total m n with hLe | hLe
  · obtain ⟨s₁, hRun₁, hSame⟩ := run_mono h hMemory hLe hRun
    rw [hRun'] at hRun₁
    cases hRun₁
    exact ⟨rfl, hSame⟩
  · obtain ⟨s₁, hRun₁, hSame⟩ := run_mono h hMemory hLe hRun'
    rw [hRun] at hRun₁
    cases hRun₁
    exact ⟨rfl, fun hMemory' a => (hSame.lookup hMemory' a).symm, hSame.log.symm⟩

end Program

end

/-! ## The other way round -/

section

variable {C D τ σ υ ρ : Type}
  [Input C τ σ] [InputView C τ σ] [Token τ] [ToValue τ] [ToValue σ]
  [Input D υ ρ] [InputView D υ ρ] [Token υ] [ToValue υ] [ToValue ρ]
  {A : Alignment C D} {memory : Nat → List τ} {memory' : Nat → List υ} {c c' : C} {d d' : D}

namespace Alignment

/-- The same relations with the sides exchanged. -/
def flip (A : Alignment C D) : Alignment D C where
  cursor d c := A.cursor c d
  token y x := A.token x y
  value := A.value
  expected k l := A.expected l k
  after h := (A.after h).flip
  reads h hReads hReads' hLength := A.reads h hReads' hReads hLength.symm
  toChar h := (A.toChar h).symm
  toValue h := A.congruence.symm (A.toValue h)
  slice h := A.congruence.symm (A.slice h.flip)
  congruence := A.congruence
  labels := ⟨A.labels.refl, A.labels.append⟩

theorem Reaches.flip (h : A.Reaches c d c' d') : A.flip.Reaches d c d' c' :=
  ⟨h.cursor, h.right, h.left⟩

theorem Outcome.flip {α : Type} {V : α → α → Prop} (hV : ∀ {v w}, V v w → V w v)
    {r : Result C α} {r' : Result D α} (h : A.Outcome V c d r r') :
    A.flip.Outcome V d c r' r := by
  cases h with
  | ok hValue hReaches => exact .ok (hV hValue) hReaches.flip
  | error hFailure =>
    exact .error ⟨hFailure.reaches.flip, hFailure.right_position, hFailure.left_position,
      hFailure.expected, hFailure.reason.symm⟩

theorem Matched.flip (h : A.Matched memory memory') : A.flip.Matched memory' memory where
  left := h.right
  right := h.left
  functional := h.injective
  injective := h.functional
  expected hExpected := (h.expected hExpected).symm

theorem Tables.flip {st : State C} {st' : State D} (h : A.Tables st st') :
    A.flip.Tables st' st := by
  intro a d c hCursor
  have hRel := h (a := a) (c := c) (d := d) hCursor
  generalize st.lookup a (place c) = x at hRel ⊢
  generalize st'.lookup a (place d) = y at hRel ⊢
  cases hRel with
  | none => exact .none
  | some hOut => exact .some (hOut.flip A.congruence.symm)

/-- Tables that hold the same results in memory correspond to the same tables. -/
theorem Tables.congr {st : State C} {st' s' : State D} (hMatched : A.Matched memory memory')
    (h : A.Tables st st') (hSame : SameState memory' st' s') : A.Tables st s' := by
  intro a c d hCursor
  rw [← hSame.lookup (hMatched.right hCursor)]
  exact h hCursor

end Alignment

/-! ## Sessions -/

/-- Two reports of runs from cursors at one place: the results correspond, with
values in the relation `W`, and so do the records, entry by entry. -/
structure Alignment.Reported (A : Alignment C D) (W : Value → Value → Prop) (c : C) (d : D)
    (x : Report C) (y : Report D) : Prop where
  result : A.Outcome W c d x.result y.result
  trace : Forall₂ (Record.Shifted (A.Positions c d)) x.trace y.trace

namespace Session

/-- Two sessions of one program, which treats related values alike, in states that
runs lead to and with corresponding tables. -/
structure Aligned (A : Alignment C D) (memory : Nat → List τ) (memory' : Nat → List υ)
    (s : Session C) (t : Session D) : Prop where
  program_eq : s.program = t.program
  alike : s.program.Alike A.value True s.program
  left : s.Reachable memory
  right : t.Reachable memory'
  tables : A.Tables s.state t.state

/-- Pairs of sessions that start with nothing stored and are led on by runs of one
grammar from cursors at one place and by forgetting the results of one parser. -/
inductive Paired (A : Alignment C D) : Session C → Session D → Prop
  | start {program : Program} (hProgram : program.Alike A.value True program) :
    Paired A { program } { program }
  | parse {s s' : Session C} {t t' : Session D} {g c d x y} (h : Paired A s t)
    (hAlike : g.Alike A.value True g) (hCursor : A.cursor c d)
    (hLeft : s.parse g c = some (x, s')) (hRight : t.parse g d = some (y, t')) : Paired A s' t'
  | clear {s : Session C} {t : Session D} (name : String) (h : Paired A s t) :
    Paired A (s.clear name) (t.clear name)

variable {g : Grammar} {W : Value → Value → Prop} {s s' : Session C} {t t' : Session D}
  {P : Program}

theorem Aligned.flip (h : Aligned A memory memory' s t) :
    Aligned A.flip memory' memory t s where
  program_eq := h.program_eq.symm
  alike := h.program_eq ▸ h.alike
  left := h.right
  right := h.left
  tables := h.tables.flip

variable [LawfulInput D]

/-- A grammar gives corresponding results on both sides, as deeply as references are
followed. -/
def Follows (hMatched : A.Matched memory memory') (P : Program) (W : Value → Value → Prop)
    (g : Grammar) : Prop :=
  ∀ ⦃c d⦄ (hCursor : A.cursor c d) n, (lockstep hMatched hCursor).Simulates W
    (g.parser (P.level n) .fresh) (g.parser (P.level n) .fresh)

variable [LawfulToken υ] {hMatched : A.Matched memory memory'}

/-- What one side gives the other one gives, with a corresponding report, and the
sessions stay aligned. The other side follows references as deeply at first, and
then to the depth of its own runs, which makes no difference. -/
theorem Aligned.parse_left (h : Aligned A memory memory' s t) (hCursor : A.cursor c d)
    (hFollows : Follows hMatched s.program W g) {x : Report C}
    (hParse : s.parse g c = some (x, s')) :
    ∃ y t', t.parse g d = some (y, t') ∧ A.Reported W c d x y ∧
      Aligned A memory memory' s' t' := by
  obtain ⟨s₁, hRun, hTrace, rfl⟩ := parse_eq_some_iff.mp hParse
  have hOpened : (lockstep hMatched hCursor).state (s.opened c) (t.opened d) :=
    ⟨(h.tables.setLog [] []).note _ _, .cons (.entered (Reaches.refl hCursor).positions) .nil⟩
  obtain ⟨r', s₁', hRun', hOut, hTables, hLog⟩ :=
    lockstep_inFreshScope (hFollows hCursor _) ⟨[], .refl c⟩ hCursor hOpened hRun
  rw [h.program_eq] at hRun'
  have hMemory := hMatched.right hCursor
  obtain ⟨s₂, hDeep⟩ := result?_eq_some_iff.mp (h.right.result?_of_level hMemory hRun')
  obtain ⟨-, hSame⟩ := Program.run_unique h.right hMemory hRun' hDeep
  have hParse' : t.parse g d = some (⟨r', (closed s₂ r').log.reverse⟩,
      { t with state := closed s₂ r' }) := parse_eq_some_iff.mpr ⟨s₂, hDeep, rfl, rfl⟩
  refine ⟨_, _, hParse', ⟨hOut, ?_⟩, h.program_eq, h.alike,
    .parse h.left (hMatched.left hCursor) hParse, .parse h.right hMemory hParse', ?_⟩
  · rw [hTrace]
    refine rel_reverse (.cons .exited (.cons (hOut.shifted hMatched) ?_))
    rw [← hSame.log]
    exact hLog
  · exact ((hTables.congr hMatched hSame).note _ _).note _ _

variable [LawfulInput C] [LawfulToken τ]

/-- A run returns on one side if and only if it does on the other one, with a
corresponding report. -/
theorem Aligned.parse (h : Aligned A memory memory' s t) (hCursor : A.cursor c d)
    (hFollows : Follows hMatched s.program W g)
    (hFollows' : Follows hMatched.flip s.program W g) :
    Option.Rel (fun x y => A.Reported W c d x.1 y.1) (s.parse g c) (t.parse g d) := by
  rcases hs : s.parse g c with _ | ⟨x, s'⟩
  · rcases ht : t.parse g d with _ | ⟨y, t'⟩
    · exact .none
    · rw [h.program_eq] at hFollows'
      obtain ⟨x, s', hs', -⟩ := h.flip.parse_left hCursor hFollows' ht
      rw [hs] at hs'
      cases hs'
  · obtain ⟨y, t', ht, hReported, -⟩ := h.parse_left hCursor hFollows hs
    rw [ht]
    exact .some hReported

theorem follows_alike (hMatched : A.Matched memory memory')
    (hProgram : P.Alike A.value True P) (hAlike : g.Alike A.value True g) :
    Follows hMatched P A.value g := by
  intro c d hCursor n
  have hCall := hProgram.simulates_level (K := lockstep hMatched hCursor)
    (fun _ => lockstep_memo) lockstep_inFreshScope n
  exact hAlike.simulates hCall (fun _ => lockstep_memo) lockstep_inFreshScope _ _ fun _ => rfl

theorem Paired.aligned (hMatched : A.Matched memory memory') (h : Paired A s t) :
    Aligned A memory memory' s t := by
  induction h with
  | start hProgram => exact ⟨rfl, hProgram, .start _, .start _, .empty⟩
  | parse _ hAlike hCursor hLeft hRight ih =>
    obtain ⟨y, t', ht, -, hAligned⟩ :=
      ih.parse_left hCursor (follows_alike hMatched ih.alike hAlike) hLeft
    rw [hRight] at ht
    cases ht
    exact hAligned
  | clear name _ ih =>
    exact ⟨ih.program_eq, ih.alike, ih.left.clear name, ih.right.clear name,
      ih.tables.clear _⟩

/-- In paired sessions, a run returns on one side if and only if it does on the
other one, with a corresponding report. -/
theorem Paired.parse_rel (hMatched : A.Matched memory memory') (h : Paired A s t)
    (hCursor : A.cursor c d) (hAlike : g.Alike A.value True g) :
    Option.Rel (fun x y => A.Reported A.value c d x.1 y.1) (s.parse g c) (t.parse g d) :=
  have hAligned := h.aligned hMatched
  hAligned.parse hCursor (follows_alike hMatched hAligned.alike hAlike)
    (follows_alike hMatched.flip hAligned.alike hAlike)

end Session

/-! ## Recoded sources -/

/-- Two reports of runs over a source and over the recoded one: the results
correspond, and the records differ only in the positions, which are in the relation
`pos`. -/
structure SameReport (f : τ → υ) (pos : Nat → Nat → Prop) (W : Value → Value → Prop)
    (x : Report C) (y : Report D) : Prop where
  result : SameResult f pos W x.result y.result
  trace : Forall₂ (Record.Shifted pos) x.trace y.trace

theorem Alignment.Reported.sameReport [LawfulInput C] [LawfulInput D] {f : τ → υ}
    {V W : Value → Value → Prop} {h : Recoding C D f V} {pos : Nat → Nat → Prop} {x : Report C}
    {y : Report D} (hReported : (recoded h memory).Reported W c d x y)
    (hPos : ∀ {p q}, (recoded h memory).Positions c d p q → pos p q) :
    SameReport f pos W x y where
  result := hReported.result.sameResult hPos
  trace := hReported.trace.imp fun _ _ hShifted => hShifted.mono fun _ _ => hPos

end

end Packrat

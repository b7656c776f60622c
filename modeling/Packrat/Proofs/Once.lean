import Packrat.Input.Slice.Lemmas
import Packrat.Proofs.Accounted

/-!
# Memoised parsers run once

A session beside the same session of the plain program, with the events since the
results of each named parser were last forgotten. In between, the parser inside a
memoised one is started at most once at each place, and its table holds one result for
each place at which it has been run.

* `Session.Watched`: a session, the plain one, and the events;
* `Ledger`: what the events say about the table of one address;
* `Session.RunsOnce`: what holds of the table of an address, and of the counters;
* `Session.Watched.runs_once`: it holds of every session.
-/

namespace Packrat

open Input List

variable {C τ σ : Type} [Input C τ σ] [InputView C τ σ] {memory : Nat → List τ}

/-! ## The events since a table was empty -/

/-- What the events since the table of an address was empty say about it. -/
structure Ledger (memory : Nat → List τ) (a : Address) (st : State C) (events : List Event) :
    Prop where
  stored_iff : ∀ {p}, st.lookup a p ≠ none ↔ .started a p ∈ events
  invoked : ∀ {p}, .invoked a p ∈ events →
    st.lookup a p ≠ none ∧ ∃ c : C, InMemory memory c ∧ place c = p
  started : ∀ {p}, .started a p ∈ events → .invoked a p ∈ events
  nodup : (Event.starts a events).Nodup

namespace Ledger

variable {a b : Address} {st s : State C} {events rest : List Event}

theorem nil (hNone : ∀ p, st.lookup a p = none) : Ledger memory a st [] where
  stored_iff := by simp [hNone]
  invoked hMem := absurd hMem not_mem_nil
  started hMem := absurd hMem not_mem_nil
  nodup := nodup_nil

theorem congr (h : Ledger memory a st events) (hLookup : ∀ p, s.lookup a p = st.lookup a p) :
    Ledger memory a s events where
  stored_iff := by
    intro p
    rw [hLookup, h.stored_iff]
  invoked hMem := by
    rw [hLookup]
    exact h.invoked hMem
  started := h.started
  nodup := h.nodup

/-- The places of the results are those of the starts. -/
theorem keys_perm (h : Ledger memory a st events) :
    (st.table a).keys.Perm (Event.starts a events) := by
  have hKeys : (st.table a).keys.Nodup :=
    Std.TreeMap.distinct_keys.imp fun hNe hEq => hNe (by rw [hEq]; exact Std.ReflCmp.compare_self)
  refine (perm_ext_iff_of_nodup hKeys h.nodup).mpr fun p => ?_
  rw [Event.mem_starts_iff, ← h.stored_iff, Std.TreeMap.mem_keys,
    Std.TreeMap.mem_iff_isSome_getElem?, Option.isSome_iff_ne_none]
  rfl

/-- A memoised parser is run where the parser inside it is started, and nowhere else. -/
theorem invocations_perm (h : Ledger memory a st events) :
    (Event.invocations a events).dedup.Perm (Event.starts a events) := by
  refine (perm_ext_iff_of_nodup (nodup_dedup _) h.nodup).mpr fun p => ?_
  rw [mem_dedup, Event.mem_invocations_iff, Event.mem_starts_iff]
  exact ⟨fun hMem => h.stored_iff.mp (h.invoked hMem).1, h.started⟩

theorem size_eq (h : Ledger memory a st events) :
    (st.table a).size = (Event.starts a events).length := by
  rw [← Std.TreeMap.length_keys]
  exact h.keys_perm.length_eq

/-- A source has one place more than it has tokens. -/
theorem length_filter_le [Token τ] [LawfulInput C] (h : Ledger memory a st events) {c : C}
    (hMemory : InMemory memory c) :
    ((Event.invocations a events).dedup.filter (·.source = source c)).length ≤
      (before c ++ after c).length + 1 := by
  have hNodup := (nodup_dedup (Event.invocations a events)).filter (·.source = source c)
  have hSubset : (Event.invocations a events).dedup.filter (·.source = source c) ⊆
      (range ((before c ++ after c).length + 1)).map fun k =>
        ⟨source c, widthOf C ((before c ++ after c).take k)⟩ := by
    intro p hMem
    rw [mem_filter, mem_dedup, Event.mem_invocations_iff, decide_eq_true_iff] at hMem
    obtain ⟨-, d, hd, rfl⟩ := h.invoked hMem.1
    have hSource : source d = source c := hMem.2
    have hContent := hd.content_eq hMemory hSource
    refine mem_map.mpr ⟨(before d).length, mem_range.mpr ?_, ?_⟩
    · rw [← hContent, length_append]
      omega
    · rw [← hContent, take_left, ← LawfulInput.position_eq, ← hSource]
      rfl
  have hLength := (hNodup.subperm hSubset).length_le
  rwa [length_map, length_range] at hLength

/-- A run goes on from there. -/
theorem append [Token τ] [ToValue τ] [ToValue σ] {P : Program} {n : Nat}
    (h : Ledger memory a st events) (hLasting : a.Lasting)
    (hRun : Account P memory n b st s rest) : Ledger memory a s (events ++ rest) where
  stored_iff := by
    intro p
    rw [hRun.stored_iff hLasting, h.stored_iff, mem_append]
  invoked := by
    intro p hMem
    rcases mem_append.mp hMem with hBefore | hRest
    · obtain ⟨hFound, hPlace⟩ := h.invoked hBefore
      exact ⟨(hRun.stored_iff hLasting).mpr (.inl hFound), hPlace⟩
    · exact hRun.invoked hLasting hRest
  started := by
    intro p hMem
    rcases mem_append.mp hMem with hBefore | hRest
    · exact mem_append_left _ (h.started hBefore)
    · exact mem_append_right _ (hRun.started hRest)
  nodup := by
    rw [Event.starts_append]
    refine h.nodup.append (hRun.nodup hLasting) fun p hBefore hRest => ?_
    rw [Event.mem_starts_iff] at hBefore hRest
    exact h.stored_iff.mpr hBefore (hRun.absent hLasting hRest)

end Ledger

/-! ## Sessions -/

namespace Session

section

variable [Token τ] [ToValue τ] [ToValue σ]

/-- A session beside the same session of the plain program, with the events since the
results of each address were last forgotten. All runs return. -/
inductive Watched (memory : Nat → List τ) :
    Session C → Session C → (Address → List Event) → Prop
  | start (program : Program) :
    Watched memory { program } { program := program.plain } fun _ => []
  | parse {session bare next bareNext : Session C} {history g c report bareReport}
    (h : Watched memory session bare history) (hMemory : InMemory memory c)
    (hParse : session.parse g c = some (report, next))
    (hBare : bare.parse g.plain c = some (bareReport, bareNext)) :
    Watched memory next bareNext fun a => history a ++ session.events g c
  | clear {session bare : Session C} {history} (name : String)
    (h : Watched memory session bare history) :
    Watched memory (session.clear name) (bare.clear name) fun a =>
      if a = .named name then [] else history a

variable {session bare next bareNext : Session C} {history : Address → List Event} {a : Address}

omit [InputView C τ σ] [Token τ] [ToValue τ] [ToValue σ] in
theorem lookup_opened (session : Session C) (c : C) (a : Address) (p : Place) :
    (session.opened c).lookup a p = session.state.lookup a p := by
  unfold opened
  rw [State.lookup_note, State.lookup_setLog]

omit [InputView C τ σ] [Token τ] [ToValue τ] [ToValue σ] in
theorem lookup_closed (st : State C) (r : Result C Value) (a : Address) (p : Place) :
    (closed st r).lookup a p = st.lookup a p := by
  unfold closed
  rw [State.lookup_note, State.lookup_note]

namespace Watched

theorem reachable (h : Watched memory session bare history) : session.Reachable memory := by
  induction h with
  | start program => exact .start program
  | parse _ hMemory hParse _ ih => exact ih.parse hMemory hParse
  | clear name _ ih => exact ih.clear name

theorem program_eq (h : Watched memory session bare history) :
    bare.program = session.program.plain := by
  induction h with
  | start program => rfl
  | parse _ _ hParse hBare ih =>
    obtain ⟨s, -, -, rfl⟩ := parse_eq_some_iff.mp hParse
    obtain ⟨s', -, -, rfl⟩ := parse_eq_some_iff.mp hBare
    exact ih
  | clear name _ ih => exact ih

end Watched

variable [LawfulInput C] [LawfulToken τ]

/-- A run of a session beside the run of the plain program. -/
theorem settled {g : Grammar} {c : C} {report bareReport : Report C}
    (hReachable : session.Reachable memory) (hProgram : bare.program = session.program.plain)
    (hMemory : InMemory memory c) (hParse : session.parse g c = some (report, next))
    (hBare : bare.parse g.plain c = some (bareReport, bareNext)) :
    Account session.program memory (session.program.plain.depth c) .fresh session.state next.state
        (session.events g c) ∧
      ∀ x, next.state.counter x + bare.state.counter x ≤
        bareNext.state.counter x + session.state.counter x := by
  obtain ⟨s, hRun, rfl⟩ := observed_of_parse hParse
  obtain ⟨s', hPlain, -, rfl⟩ := parse_eq_some_iff.mp hBare
  rw [hProgram] at hPlain
  have hSound : session.program.Sound memory g (session.opened c) := hReachable.sound_opened g
  have hEnd := session.program.accounted (a := .fresh) hMemory hSound hRun hPlain
  exact ⟨hEnd.account.congr (fun _ => (lookup_opened session c _ _).symm) fun _ =>
    lookup_closed s _ _ _, hEnd.counter_le⟩

namespace Watched

/-- The events since a table was empty, by induction on the session. -/
theorem ledger (h : Watched memory session bare history) (hLasting : a.Lasting) :
    Ledger memory a session.state (history a) := by
  induction h with
  | start program =>
    refine .nil fun p => ?_
    obtain ⟨scope, path⟩ := a
    cases scope <;> simp [State.lookup, State.table, State.tables, Tables.table]
  | parse h hMemory hParse hBare ih =>
    exact ih.append hLasting (settled h.reachable h.program_eq hMemory hParse hBare).1
  | clear name _ ih =>
    dsimp only
    by_cases hEq : a = .named name
    · rw [if_pos hEq]
      exact .nil fun p => (State.lookup_clear _ _ _ p).trans (if_pos hEq.symm)
    · rw [if_neg hEq]
      exact ih.congr fun p => (State.lookup_clear _ _ _ p).trans (if_neg (Ne.symm hEq))

theorem counter_le (h : Watched memory session bare history) (x : String) :
    session.state.counter x ≤ bare.state.counter x := by
  induction h with
  | start program => exact Nat.le_refl _
  | parse h hMemory hParse hBare ih =>
    have hLe := (settled h.reachable h.program_eq hMemory hParse hBare).2 x
    omega
  | clear name _ ih =>
    unfold Session.clear
    rw [State.counter_clear, State.counter_clear]
    exact ih

/-- A run of the session returns exactly when the run of the plain program does. -/
theorem parse_isSome_iff (h : Watched memory session bare history) {c : C}
    (hMemory : InMemory memory c) (g : Grammar) :
    (session.parse g c).isSome ↔ (bare.parse g.plain c).isSome := by
  have hResult : ∀ r, session.result? g c = some r ↔ bare.result? g.plain c = some r := by
    intro r
    have hPlain : (Session.mk session.program.plain bare.state).result? g.plain c = some r ↔
        session.program.Yields g c r := result?_plain_iff
    rw [← h.program_eq] at hPlain
    rw [h.reachable.result?_iff hMemory, ← hPlain]
  have hSome : ∀ (session : Session C) (g : Grammar),
      (session.parse g c).isSome ↔ ∃ r, session.result? g c = some r := by
    intro session g
    unfold result?
    rw [← Option.isSome_iff_exists, Option.isSome_map]
  rw [hSome, hSome]
  exact exists_congr hResult

end Watched

/-- What holds of the table of a memoised parser that lasts, given the events since its
results were last forgotten, and of the counters. -/
structure RunsOnce (memory : Nat → List τ) (session bare : Session C) (a : Address)
    (events : List Event) : Prop where
  /-- The parser inside it has been started at most once at each place. -/
  starts_nodup : (Event.starts a events).Nodup
  /-- It has as many results as there are places at which it has been run. -/
  size_eq_invocations : (session.state.table a).size = (Event.invocations a events).dedup.length
  /-- It has as many results as the parser inside it has been started. -/
  size_eq_starts : (session.state.table a).size = (Event.starts a events).length
  isEmpty_iff : (session.state.table a).isEmpty ↔ (Event.invocations a events).dedup.length = 0
  /-- In each source, these places are at most one more than its tokens. -/
  source_le : ∀ {c : C}, InMemory memory c →
    ((Event.invocations a events).dedup.filter (·.source = source c)).length ≤
      (before c ++ after c).length + 1
  /-- The next run removes no result and changes none. -/
  kept : ∀ {g} {c : C} {report next}, InMemory memory c →
    session.parse g c = some (report, next) →
    ∀ {p : Place} {r}, (session.state.table a)[p]? = some r → (next.state.table a)[p]? = some r
  /-- Without memoisation the next run returns if and only if it returns with it. -/
  returns_iff : ∀ {c : C}, InMemory memory c → ∀ g,
    (session.parse g c).isSome ↔ (bare.parse g.plain c).isSome
  /-- No part of a grammar has been run more often than without memoisation. -/
  counter_le : ∀ x, session.state.counter x ≤ bare.state.counter x

/-- In every session whose runs return, whatever has been run and forgotten, a memoised
parser that lasts runs the parser inside it at most once at each place. -/
theorem Watched.runs_once (h : Watched memory session bare history) (hLasting : a.Lasting) :
    RunsOnce memory session bare a (history a) := by
  have hLedger := h.ledger hLasting
  have hInvocations := hLedger.invocations_perm.length_eq
  refine ⟨hLedger.nodup, hLedger.size_eq.trans hInvocations.symm, hLedger.size_eq, ?_,
    hLedger.length_filter_le, ?_, h.parse_isSome_iff, h.counter_le⟩
  · rw [Std.TreeMap.isEmpty_eq_size_eq_zero, beq_iff_eq, hLedger.size_eq, hInvocations]
  · intro g c report next hMemory hParse p r hFound
    obtain ⟨⟨bareReport, bareNext⟩, hBare⟩ := Option.isSome_iff_exists.mp
      ((h.parse_isSome_iff hMemory g).mp (hParse ▸ rfl))
    exact (settled h.reachable h.program_eq hMemory hParse hBare).1.kept hLasting hFound

end

/-- A word is run twice at one place in each of two runs, and forgotten in between. -/
theorem runs_once_of_forgotten :
    ∃ (session bare : Session (SliceCursor Char)) (history : Address → List Event) (p : Place),
      Watched (fun _ => ['a', 'b']) session bare history ∧
      history (.named "word") =
        [.invoked (.named "word") p, .started (.named "word") p, .invoked (.named "word") p] ∧
      session.state.counter "word" = 2 ∧ bare.state.counter "word" = 4 ∧
      RunsOnce (fun _ => ['a', 'b']) session bare (.named "word") (history (.named "word")) := by
  let program : Program :=
    { shared := [("word", .memo (.tally "word" (.takeWhile1 Char.isAlpha)))] }
  let g : Grammar := .orElse (.seqLeft (.call (.shared "word")) (.literal "!"))
    (.call (.shared "word"))
  let c : SliceCursor Char := .ofSource ⟨0, #['a', 'b']⟩
  let p : Place := ⟨⟨0, 2⟩, 0⟩
  obtain ⟨_, session, _, bare, _, next, _, bareNext, hParse, hBare, hParse', hBare', hEvents,
      hCounter, hCounter'⟩ : ∃ report session report' bare report₂ next report₂' bareNext,
      ({ program } : Session (SliceCursor Char)).parse g c = some (report, session) ∧
      ({ program := program.plain } : Session (SliceCursor Char)).parse g.plain c =
        some (report', bare) ∧
      (session.clear "word").parse g c = some (report₂, next) ∧
      (bare.clear "word").parse g.plain c = some (report₂', bareNext) ∧
      (session.clear "word").events g c =
        [.invoked (.named "word") p, .started (.named "word") p, .invoked (.named "word") p] ∧
      next.state.counter "word" = 2 ∧ bareNext.state.counter "word" = 4 :=
    ⟨_, _, _, _, _, _, _, _, rfl, rfl, rfl, rfl, rfl, rfl, rfl⟩
  have hMemory : InMemory (fun _ => ['a', 'b']) c := ⟨[], rfl⟩
  have hWatched := (((Watched.start program).parse hMemory hParse hBare).clear "word").parse
    hMemory hParse' hBare'
  have hHistory := congrArg (([] : List Event) ++ ·) hEvents
  exact ⟨next, bareNext, _, p, hWatched, hHistory, hCounter, hCounter',
    hWatched.runs_once (Address.lasting_named "word")⟩

end Session

end Packrat

import Packrat.Proofs.Pairs
import Packrat.Proofs.Stalls

/-!
# The record of a run

The record of a run is framed by its start, its outcome and its end. The entries between
them tell of alternatives given up, of stored results used and of repetitions that have
stalled, at positions that the run can come to: none is before the cursor where it starts
and none after the end of the source, and an alternative is not given up behind the place
where it was tried. There is one warning for each repetition that has stalled.

* `Record.Inner`: the entries of the body, with the positions that they mention;
* `Coupling.recorded`: a run beside itself, with the entries that it adds bounded;
* `Session.Reachable.extends`: the entries that a run adds to a record;
* `Report.Framed`: the form of a record;
* `Session.Reachable.framed`: every run of every session has a record of this form.
-/

namespace Packrat

open Input List Packrat.Alignment

/-- An entry of the body of a record, with positions between two bounds. -/
inductive Record.Inner (lo hi : Nat) : Record → Prop
  | backtracked {p q : Nat} (hStart : lo ≤ p) (hLe : p ≤ q) (hStop : q ≤ hi) :
    Inner lo hi (.backtracked p q)
  | memoHit {p : Nat} (hStart : lo ≤ p) (hStop : p ≤ hi) : Inner lo hi (.memoHit p)
  | stalled {p : Nat} (hStart : lo ≤ p) (hStop : p ≤ hi) : Inner lo hi (.stalled p)

/-- A record with some entries added to it, all of them entries of the body. -/
def Record.Extends (lo hi : Nat) (base log : List Record) : Prop :=
  ∃ body, log = body ++ base ∧ ∀ x ∈ body, x.Inner lo hi

theorem Record.Extends.cons {lo hi : Nat} {base log : List Record} {x : Record}
    (h : Extends lo hi base log) (hInner : x.Inner lo hi) : Extends lo hi base (x :: log) := by
  obtain ⟨body, rfl, hBody⟩ := h
  exact ⟨x :: body, rfl, forall_mem_cons.mpr ⟨hInner, hBody⟩⟩

section

variable {C τ σ α β : Type} [Input C τ σ] [InputView C τ σ] [Token τ] [LawfulInput C] {c d : C}
  {tokens : List τ}

/-- What is reached by reading is between the start and the end of the source. -/
theorem Reads.within (h : Reads c tokens d) :
    position c ≤ position d ∧ position d ≤ (source c).size :=
  ⟨h.position_le, h.source_eq ▸ position_le_size d⟩

variable [ToValue τ] [ToValue σ] {memory : Nat → List τ} {base : List Record} {start : C}

/-! ## Runs -/

namespace Coupling

/-- A run beside itself, from a cursor in memory. Stored results are reached from the places
they are stored for, and the entries added to the record belong to its body. -/
def recorded (memory : Nat → List τ) (start : C) (base : List Record) :
    Coupling (recoded (Recoding.id (C := C)) memory) where
  within c := ∃ tokens, Reads start tokens c
  state st st' := st = st' ∧ (recoded (Recoding.id (C := C)) memory).Tables st st ∧
    Record.Extends (position start) (source start).size base st.log
  record x y := x = y ∧ x.Inner (position start) (source start).size
  within_reads := @Reads.exists_trans _ _ _ _ _ start
  note := by
    rintro st _ x _ ⟨rfl, hTables, hAdded⟩ ⟨rfl, hInner⟩
    exact ⟨rfl, hTables.note _ _, hAdded.cons hInner⟩
  tally := by
    rintro st _ name ⟨rfl, hTables, hAdded⟩
    exact ⟨rfl, hTables.tally name, hAdded⟩
  backtracked := by
    rintro c d c' d' ⟨tokens, hReads⟩ hCursor hReaches
    obtain ⟨-, rfl⟩ := recoded_id_iff.mp hCursor
    obtain ⟨-, rfl⟩ := recoded_id_iff.mp hReaches.cursor
    obtain ⟨tokens', hReads'⟩ := hReaches.left
    exact ⟨rfl, .backtracked hReads.position_le hReads'.position_le (hReads.trans hReads').within.2⟩
  stalled := by
    rintro c d ⟨tokens, hReads⟩ hCursor
    obtain ⟨-, rfl⟩ := recoded_id_iff.mp hCursor
    exact ⟨rfl, .stalled hReads.within.1 hReads.within.2⟩

theorem recorded_inFreshScope {V : α → β → Prop} {p : Parser C α} {q : Parser C β}
    (h : (recorded memory start base).Simulates V p q) :
    (recorded memory start base).Simulates V (.inFreshScope p) (.inFreshScope q) := by
  rintro c d st _ hWithin hCursor ⟨rfl, hTables, hAdded⟩ r s hRun
  have hFresh : (recorded memory start base).state { st with current := ∅ }
      { st with current := ∅ } := ⟨rfl, hTables.fresh, hAdded⟩
  obtain ⟨s₁, hp, rfl⟩ := Parser.inFreshScope_eq_some_iff.mp hRun
  obtain ⟨r', _, hq, hOut, rfl, hTables', hAdded'⟩ := h hWithin hCursor hFresh hp
  exact ⟨r', _, Parser.inFreshScope_eq_some_iff.mpr ⟨s₁, hq, rfl⟩, hOut, rfl,
    hTables.restore hTables', hAdded'⟩

theorem recorded_memo {a : Address} {p q : Parser C Value}
    (h : (recorded memory start base).Simulates Eq p q) :
    (recorded memory start base).Simulates Eq (.memo a p) (.memo a q) := by
  rintro c d st _ hWithin hCursor ⟨rfl, hTables, hAdded⟩ r s hRun
  have hState : (recorded memory start base).state st st := ⟨rfl, hTables, hAdded⟩
  have hFound := hTables (a := a) hCursor
  obtain ⟨hMemory, rfl⟩ := recoded_id_iff.mp hCursor
  rcases Parser.memo_eq_some_iff.mp hRun with ⟨hLookup, rfl⟩ | ⟨hLookup, s₁, hp, rfl⟩
  · obtain ⟨tokens, hReads⟩ := hWithin
    rw [hLookup] at hFound
    cases hFound with
    | some hOut =>
      exact ⟨r, _, Parser.memo_eq_some_iff.mpr (.inl ⟨hLookup, rfl⟩), hOut,
        (recorded memory start base).note hState ⟨rfl, .memoHit hReads.within.1 hReads.within.2⟩⟩
  · obtain ⟨r', _, hq, hOut, rfl, hTables', hAdded'⟩ := h hWithin hCursor hState hp
    obtain rfl : r = r' := hOut.eq_of_cursor (fun h => (recoded_id_iff.mp h).2) id
    refine ⟨r, _, Parser.memo_eq_some_iff.mpr (.inr ⟨hLookup, s₁, hq, rfl⟩), hOut, rfl,
      hTables'.store (recoded_matched Recoding.id memory) hCursor hOut a, ?_⟩
    obtain ⟨scope, path⟩ := a
    cases scope <;> exact hAdded'

end Coupling

open Coupling

variable [LawfulToken τ] {P : Program} {g : Grammar} {session : Session C} {r : Result C Value}
  {s : State C}

/-- The entries that a run adds to the record belong to its body. -/
theorem Session.Reachable.extends (h : session.Reachable memory) (hMemory : InMemory memory c)
    (hRun : P.parser g c (session.opened c) = some (r, s)) :
    Record.Extends (position c) (source c).size (session.opened c).log s.log := by
  have hLevel := P.alike_self.simulates_level (K := recorded memory c (session.opened c).log)
    (fun _ => recorded_memo) recorded_inFreshScope (P.depth c)
  have hGrammar := g.alike_self.simulates hLevel (fun _ => recorded_memo) recorded_inFreshScope
    .fresh .fresh fun _ => rfl
  have hState : (recorded memory c (session.opened c).log).state (session.opened c)
      (session.opened c) := ⟨rfl, (h.tables.setLog [] []).note _ _, [], rfl, forall_mem_nil _⟩
  obtain ⟨_, _, -, -, rfl, -, hAdded⟩ :=
    recorded_inFreshScope hGrammar ⟨[], .refl c⟩ hMemory.cursor hState hRun
  exact hAdded

/-! ## Records -/

/-- The form of the record of a run: its start, some entries of the body, the outcome as the
result tells it, and its end. The body has one warning for each repetition that has stalled
in the run, at the position of the failure that it creates, and no other ones. -/
structure Report.Framed (x : Report C) (c : C) (stalls : List (ParseError C))
    (body : List Record) (last : Record) : Prop where
  trace : x.trace = .entered (position c) :: (body ++ [last, .exited])
  succeeded_iff : ∀ stop, last = .succeeded stop ↔ ∃ v d, x.result = .ok (v, d) ∧ position d = stop
  failed_iff : ∀ p text, last = .failed p text ↔
    ∃ e, x.result = .error e ∧ e.position = p ∧ e.text = text
  inner : ∀ y ∈ body, y.Inner (position c) (source c).size
  warnings : Record.warnings body = stalls.map ParseError.warning

omit [InputView C τ σ] [Token τ] [LawfulInput C] [ToValue τ] [ToValue σ] [LawfulToken τ] in
theorem Parser.ending_eq_succeeded_iff {stop : Nat} :
    ending r = .succeeded stop ↔ ∃ v d, r = .ok (v, d) ∧ position d = stop := by
  rcases r with e | ⟨v, d⟩
  · simp [ending]
  · simp [ending]

omit [InputView C τ σ] [Token τ] [LawfulInput C] [ToValue τ] [ToValue σ] [LawfulToken τ] in
theorem Parser.ending_eq_failed_iff {p : Nat} {text : String} :
    ending r = .failed p text ↔ ∃ e, r = .error e ∧ e.position = p ∧ e.text = text := by
  rcases r with e | ⟨v, d⟩
  · simp [ending]
  · simp [ending]

/-- Whatever has been run and forgotten, the record of a run is framed by its start, its
outcome and its end, with entries of the body between them and a warning for each repetition
that has stalled. -/
theorem Session.Reachable.framed (h : session.Reachable memory) (hMemory : InMemory memory c)
    {report : Report C} {next : Session C} (hParse : session.parse g c = some (report, next)) :
    ∃ body last, report.Framed c (session.stalls g c) body last := by
  obtain ⟨s, hRun, hTrace, -⟩ := parse_eq_some_iff.mp hParse
  obtain ⟨body, hLog, hInner⟩ := h.extends hMemory hRun
  obtain ⟨entries, hEntries, hWarnings⟩ := session.program.warns g c hRun
  have hBody : entries = body.reverse := by
    rw [hLog, reverse_append] at hEntries
    exact (append_cancel_left hEntries).symm
  refine ⟨body.reverse, Parser.ending report.result, ?_, fun _ => Parser.ending_eq_succeeded_iff,
    fun _ _ => Parser.ending_eq_failed_iff, fun x hMem => hInner x (mem_reverse.mp hMem),
    hBody ▸ hWarnings⟩
  rw [hTrace]
  simp [closed, opened, State.note, hLog]

end

/-- A word is read and stored, and then used again where a repetition has stalled. -/
theorem Session.framed_of_stalled :
    ∃ (session next : Session (SliceCursor Char)) (report : Report (SliceCursor Char)),
      session.Reachable (fun _ => ['a', 'b']) ∧
      session.parse (.orElse (.many (.pure .unit)) (.call (.shared "word")))
        (.ofSource ⟨0, #['a', 'b']⟩) = some (report, next) ∧
      report.trace = [.entered 0, .stalled 0, .backtracked 0 0, .memoHit 0, .succeeded 2, .exited] ∧
      ∃ body last, report.Framed (.ofSource ⟨0, #['a', 'b']⟩)
        (session.stalls (.orElse (.many (.pure .unit)) (.call (.shared "word")))
          (.ofSource ⟨0, #['a', 'b']⟩)) body last := by
  let program : Program := { shared := [("word", .memo (.takeWhile1 Char.isAlpha))] }
  let c : SliceCursor Char := .ofSource ⟨0, #['a', 'b']⟩
  obtain ⟨first, session, report, next, hFirst, hParse, hTrace⟩ : ∃ first session report next,
      ({ program } : Session (SliceCursor Char)).parse (.call (.shared "word")) c =
        some (first, session) ∧
      session.parse (.orElse (.many (.pure .unit)) (.call (.shared "word"))) c =
        some (report, next) ∧
      report.trace =
        [.entered 0, .stalled 0, .backtracked 0 0, .memoHit 0, .succeeded 2, .exited] :=
    ⟨_, _, _, _, rfl, rfl, rfl⟩
  have hMemory : InMemory (fun _ => ['a', 'b']) c := ⟨[], rfl⟩
  have hSession : session.Reachable (fun _ => ['a', 'b']) := .parse (.start program) hMemory hFirst
  exact ⟨session, next, report, hSession, hParse, hTrace, hSession.framed hMemory hParse⟩

end Packrat

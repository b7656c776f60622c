import Packrat.Proofs.Sessions

/-!
# Runs in lockstep

One grammar run over two kinds of sources, from cursors at one place and with
tables that hold corresponding results: the runs use their tables at the same
moments, so they record the same entries but for the positions, and the tables
still correspond afterwards.

* `Record.Shifted`: two entries that differ only in corresponding positions;
* `Alignment.Matched`: cursors of two memories that determine each other;
* `Alignment.Tables`: tables that hold corresponding results;
* `Coupling.lockstep`: corresponding tables and corresponding records;
* `lockstep_memo`, `lockstep_inFreshScope`: memoised parsers and fresh scopes keep
  the runs in lockstep.
-/

namespace Packrat

open Input List

/-! ## Entries of records -/

/-- Two entries of one kind whose positions are in the relation `pos`, in the words
of a failure too. -/
inductive Record.Shifted (pos : Nat → Nat → Prop) : Record → Record → Prop
  | entered {p q} (h : pos p q) : Shifted pos (.entered p) (.entered q)
  | backtracked {p q p' q'} (h : pos p q) (h' : pos p' q') :
    Shifted pos (.backtracked p p') (.backtracked q q')
  | memoHit {p q} (h : pos p q) : Shifted pos (.memoHit p) (.memoHit q)
  | stalled {p q} (h : pos p q) : Shifted pos (.stalled p) (.stalled q)
  | succeeded {p q} (h : pos p q) : Shifted pos (.succeeded p) (.succeeded q)
  | failed {p q} (h : pos p q) (start stop : String) :
    Shifted pos (.failed p (start ++ toString p ++ stop)) (.failed q (start ++ toString q ++ stop))
  | exited : Shifted pos .exited .exited

theorem Record.Shifted.mono {pos pos' : Nat → Nat → Prop} {x y : Record} (h : x.Shifted pos y)
    (hPos : ∀ p q, pos p q → pos' p q) : x.Shifted pos' y := by
  cases h with
  | entered h => exact .entered (hPos _ _ h)
  | backtracked h h' => exact .backtracked (hPos _ _ h) (hPos _ _ h')
  | memoHit h => exact .memoHit (hPos _ _ h)
  | stalled h => exact .stalled (hPos _ _ h)
  | succeeded h => exact .succeeded (hPos _ _ h)
  | failed h start stop => exact .failed (hPos _ _ h) start stop
  | exited => exact .exited

theorem Record.Shifted.eq {x y : Record} (h : x.Shifted Eq y) : x = y := by
  cases h with
  | entered h => rw [h]
  | backtracked h h' => rw [h, h']
  | memoHit h => rw [h]
  | stalled h => rw [h]
  | succeeded h => rw [h]
  | failed h start stop => rw [h]
  | exited => rfl

section

variable {C D τ σ υ ρ : Type}
  [Input C τ σ] [InputView C τ σ] [Token τ] [ToValue τ] [ToValue σ]
  [Input D υ ρ] [InputView D υ ρ] [Token υ] [ToValue υ] [ToValue ρ]

/-! ## Cursors that determine each other -/

/-- Cursors at one place lie in two memories and determine each other, and labels
are the same on both sides. -/
structure Alignment.Matched (A : Alignment C D) (memory : Nat → List τ)
    (memory' : Nat → List υ) : Prop where
  left : ∀ {c d}, A.cursor c d → InMemory memory c
  right : ∀ {c d}, A.cursor c d → InMemory memory' d
  functional : ∀ {c d d'}, A.cursor c d → A.cursor c d' → d = d'
  injective : ∀ {c c' d}, A.cursor c d → A.cursor c' d → c = c'
  expected : ∀ {k l}, A.expected k l → k = l

/-- The positions of two cursors that are reached from the given ones. -/
def Alignment.Positions (A : Alignment C D) (c : C) (d : D) (p q : Nat) : Prop :=
  ∃ c' d', A.Reaches c d c' d' ∧ position c' = p ∧ position d' = q

/-- Tables in which corresponding results are stored for all cursors at one place,
or none on either side. -/
def Alignment.Tables (A : Alignment C D) (st : State C) (st' : State D) : Prop :=
  ∀ ⦃a c d⦄, A.cursor c d →
    Option.Rel (A.Outcome A.value c d) (st.lookup a (place c)) (st'.lookup a (place d))

variable {A : Alignment C D} {memory : Nat → List τ} {memory' : Nat → List υ} {c c₁ : C}
  {d d₁ : D}

namespace Alignment

theorem Reaches.positions {c' : C} {d' : D} (h : A.Reaches c d c' d') :
    A.Positions c d (position c') (position d') :=
  ⟨c', d', h, rfl, rfl⟩

/-- The words of two failures differ in their positions alone. -/
theorem Failure.shifted (hMatched : A.Matched memory memory') {e : ParseError C}
    {f : ParseError D} (h : A.Failure c d e f) :
    (Record.failed e.position e.text).Shifted (A.Positions c d) (.failed f.position f.text) := by
  have hPos := h.reaches.positions
  rw [← h.left_position, ← h.right_position] at hPos
  unfold ParseError.text ParseError.message
  rw [h.reason, hMatched.expected h.expected]
  exact .failed hPos _ _

theorem Outcome.shifted {α β : Type} {V : α → β → Prop} {r : Result C α} {r' : Result D β}
    (hMatched : A.Matched memory memory') (h : A.Outcome V c d r r') :
    (Parser.ending r).Shifted (A.Positions c d) (Parser.ending r') := by
  cases h with
  | ok _ hReaches => exact .succeeded hReaches.positions
  | error hFailure => exact hFailure.shifted hMatched

/-! ## Tables -/

namespace Tables

variable {st s : State C} {st' s' : State D}

theorem empty : A.Tables {} {} := by
  intro ⟨scope, path⟩ c d _
  cases scope <;> simp [State.lookup, State.table, State.tables, Packrat.Tables.table]

theorem of_lookup_eq (h : A.Tables st st') (hLeft : ∀ a p, s.lookup a p = st.lookup a p)
    (hRight : ∀ a p, s'.lookup a p = st'.lookup a p) : A.Tables s s' := by
  intro a c d hCursor
  rw [hLeft, hRight]
  exact h hCursor

theorem note (h : A.Tables st st') (x y : Record) : A.Tables (st.note x) (st'.note y) :=
  h.of_lookup_eq (fun a p => st.lookup_note a p x) fun a p => st'.lookup_note a p y

theorem tally (h : A.Tables st st') (name : String) :
    A.Tables (st.tally name) (st'.tally name) :=
  h.of_lookup_eq (fun a p => st.lookup_tally a p name) fun a p => st'.lookup_tally a p name

theorem setLog (h : A.Tables st st') (log log' : List Record) :
    A.Tables { st with log } { st' with log := log' } :=
  h.of_lookup_eq (fun a p => st.lookup_setLog a p log) fun a p => st'.lookup_setLog a p log'

theorem clear (h : A.Tables st st') (b : Address) : A.Tables (st.clear b) (st'.clear b) := by
  intro a c d hCursor
  rw [State.lookup_clear, State.lookup_clear]
  by_cases hEq : b = a
  · rw [if_pos hEq, if_pos hEq]
    exact .none
  · rw [if_neg hEq, if_neg hEq]
    exact h hCursor

theorem fresh (h : A.Tables st st') :
    A.Tables { st with current := ∅ } { st' with current := ∅ } := by
  intro ⟨scope, path⟩ c d hCursor
  rw [State.lookup_fresh, State.lookup_fresh]
  cases scope with
  | named name => exact h hCursor
  | current => exact .none

theorem restore (h : A.Tables st st') (k : A.Tables s s') :
    A.Tables { s with current := st.current } { s' with current := st'.current } := by
  intro ⟨scope, path⟩ c d hCursor
  rw [State.lookup_restore, State.lookup_restore]
  cases scope with
  | named name => exact k hCursor
  | current => exact h hCursor

/-- Corresponding results are stored for cursors at one place, and for no others,
since a place in memory is that of one cursor. -/
theorem store [LawfulInput C] [LawfulInput D] (hMatched : A.Matched memory memory')
    (h : A.Tables st st') (hCursor : A.cursor c d) {r : Result C Value} {r' : Result D Value}
    (hOut : A.Outcome A.value c d r r') (b : Address) :
    A.Tables (st.store b (place c) r) (st'.store b (place d) r') := by
  intro a c₁ d₁ hCursor₁
  have hPlace : place c = place c₁ ↔ place d = place d₁ := by
    constructor
    · intro hEq
      obtain rfl := (hMatched.left hCursor).eq_of_place_eq (hMatched.left hCursor₁) hEq
      rw [hMatched.functional hCursor hCursor₁]
    · intro hEq
      obtain rfl := (hMatched.right hCursor).eq_of_place_eq (hMatched.right hCursor₁) hEq
      rw [hMatched.injective hCursor hCursor₁]
  rw [State.lookup_store, State.lookup_store]
  by_cases hEq : b = a ∧ place c = place c₁
  · rw [if_pos hEq, if_pos ⟨hEq.1, hPlace.mp hEq.2⟩]
    obtain rfl := (hMatched.left hCursor).eq_of_place_eq (hMatched.left hCursor₁) hEq.2
    obtain rfl := hMatched.functional hCursor hCursor₁
    exact .some hOut
  · rw [if_neg hEq, if_neg fun hEq' => hEq ⟨hEq'.1, hPlace.mpr hEq'.2⟩]
    exact h hCursor₁

end Tables

/-- Two cursors at one place, the first of which is reached from a start, are both
reached from one place. -/
theorem Matched.reaches [LawfulInput D] (hMatched : A.Matched memory memory')
    (hStart : A.cursor c d) {tokens : List τ} (hReads : Reads c tokens c₁)
    (hCursor : A.cursor c₁ d₁) : A.Reaches c d c₁ d₁ := by
  have hLe : tokens.length ≤ (InputView.after d).length := by
    rw [← (A.after hStart).length_eq, hReads.after_eq, length_append]
    exact Nat.le_add_right _ _
  obtain ⟨d', -, hReads'⟩ := LawfulInput.splitAt_eq_some hLe
  have hCursor' := A.reads hStart hReads hReads' (by rw [length_take, Nat.min_eq_left hLe])
  obtain rfl := hMatched.functional hCursor hCursor'
  exact ⟨hCursor, ⟨_, hReads⟩, ⟨_, hReads'⟩⟩

end Alignment

/-! ## Lockstep -/

namespace Coupling

variable [LawfulInput D]

/-- Runs from two cursors at one place, with corresponding tables and records. -/
def lockstep (hMatched : A.Matched memory memory') (hStart : A.cursor c d) : Coupling A where
  within c' := ∃ tokens, Reads c tokens c'
  state st st' := A.Tables st st' ∧ Forall₂ (Record.Shifted (A.Positions c d)) st.log st'.log
  record := Record.Shifted (A.Positions c d)
  within_reads := @Reads.exists_trans _ _ _ _ _ c
  note h hShifted := ⟨h.1.note _ _, .cons hShifted h.2⟩
  tally name h := ⟨h.1.tally name, h.2⟩
  backtracked := by
    rintro c₁ d₁ c₂ d₂ ⟨tokens, hReads⟩ hCursor hReaches
    have hFrom := hMatched.reaches hStart hReads hCursor
    exact .backtracked hFrom.positions (hFrom.trans hReaches).positions
  stalled := by
    rintro c₁ d₁ ⟨tokens, hReads⟩ hCursor
    exact .stalled (hMatched.reaches hStart hReads hCursor).positions

variable {hMatched : A.Matched memory memory'} {hStart : A.cursor c d}

theorem lockstep_inFreshScope {α β : Type} {V : α → β → Prop} {p : Parser C α} {q : Parser D β}
    (h : (lockstep hMatched hStart).Simulates V p q) :
    (lockstep hMatched hStart).Simulates V (.inFreshScope p) (.inFreshScope q) := by
  intro c₁ d₁ st st' hWithin hCursor hState r s hRun
  have hFresh : (lockstep hMatched hStart).state { st with current := ∅ }
      { st' with current := ∅ } := ⟨hState.1.fresh, hState.2⟩
  obtain ⟨s₁, hp, rfl⟩ := Parser.inFreshScope_eq_some_iff.mp hRun
  obtain ⟨r', s', hq, hOut, hTables, hLog⟩ := h hWithin hCursor hFresh hp
  exact ⟨r', _, Parser.inFreshScope_eq_some_iff.mpr ⟨s', hq, rfl⟩, hOut,
    hState.1.restore hTables, hLog⟩

variable [LawfulInput C]

/-- A result is found on both sides or on neither, and then both store theirs. -/
theorem lockstep_memo {a : Address} {p : Parser C Value} {q : Parser D Value}
    (h : (lockstep hMatched hStart).Simulates A.value p q) :
    (lockstep hMatched hStart).Simulates A.value (.memo a p) (.memo a q) := by
  intro c₁ d₁ st st' hWithin hCursor hState r s hRun
  have hTables : A.Tables st st' := hState.1
  have hFound := hTables (a := a) hCursor
  rcases Parser.memo_eq_some_iff.mp hRun with ⟨hLookup, rfl⟩ | ⟨hLookup, s₁, hp, rfl⟩
  · rw [hLookup] at hFound
    rcases hLookup' : st'.lookup a (place d₁) with _ | r'
    · rw [hLookup'] at hFound
      cases hFound
    · rw [hLookup'] at hFound
      cases hFound with
      | some hOut =>
        obtain ⟨tokens, hReads⟩ := hWithin
        have hReaches := hMatched.reaches hStart hReads hCursor
        exact ⟨r', _, Parser.memo_eq_some_iff.mpr (.inl ⟨hLookup', rfl⟩), hOut,
          (lockstep hMatched hStart).note hState (.memoHit hReaches.positions)⟩
  · rw [hLookup] at hFound
    rcases hLookup' : st'.lookup a (place d₁) with _ | r'
    · obtain ⟨r', s', hq, hOut, hTables, hLog⟩ := h hWithin hCursor hState hp
      refine ⟨r', _, Parser.memo_eq_some_iff.mpr (.inr ⟨hLookup', s', hq, rfl⟩), hOut,
        hTables.store hMatched hCursor hOut a, ?_⟩
      obtain ⟨scope, path⟩ := a
      cases scope <;> exact hLog
    · rw [hLookup'] at hFound
      cases hFound

end Coupling

end

end Packrat

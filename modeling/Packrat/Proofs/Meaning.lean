import Packrat.Proofs.Runs
import Packrat.Proofs.Tables

/-!
# The meaning of parsers

A parser that does not heed the state means a relation between cursors and results.
The meaning of a parser that is made of other ones is made of their meanings, and
states do not occur in it.

* `Run.Steady`: a run that gives its results in every state;
* `Result.Leads`: what follows a value, where a failure remains as it is;
* `Rounds`, `Rounds1`: the rounds of a repetition, as an inductive relation;
* `Parser.Means`: the meaning of a parser, with one lemma for every way to build a
  parser: `Means.map`, `Means.bind`, `Means.orElse`, `Means.many` and the like.
-/

namespace Packrat

open Input

variable {C τ σ α β γ : Type} {c d : C}

/-! ## Steady runs -/

namespace Run

/-- A run that gives its results in every state. -/
def Steady (x : Run C α) : Prop :=
  ∀ ⦃r⦄, x.Gives r → ∀ st, ∃ s, x st = some (r, s)

variable {x : Run C α} {next : Result C α → Run C β}

theorem gives_stop {r r' : Result C α} : (stop r).Gives r' ↔ r' = r := by
  constructor
  · rintro ⟨st, s, hRun⟩
    cases hRun
    rfl
  · rintro rfl
    exact ⟨{}, {}, rfl⟩

theorem gives_followedBy (hNext : ∀ ⦃r⦄, x.Gives r → (next r).Steady) {r : Result C β} :
    (x.followedBy next).Gives r ↔ ∃ r₁, x.Gives r₁ ∧ (next r₁).Gives r := by
  constructor
  · rintro ⟨st, s, hRun⟩
    obtain ⟨r₁, s₁, hx, hr⟩ := followedBy_eq_some_iff.mp hRun
    exact ⟨r₁, ⟨st, s₁, hx⟩, s₁, s, hr⟩
  · rintro ⟨r₁, ⟨st, s₁, hx⟩, hr⟩
    obtain ⟨s, hr'⟩ := hNext ⟨st, s₁, hx⟩ hr s₁
    exact ⟨st, s, followedBy_eq_some_iff.mpr ⟨r₁, s₁, hx, hr'⟩⟩

theorem gives_noting (hx : x.Steady) (entry : Record) {r : Result C α} :
    (noting entry x).Gives r ↔ x.Gives r := by
  constructor
  · rintro ⟨st, s, hRun⟩
    exact ⟨_, s, hRun⟩
  · intro hr
    obtain ⟨s, hRun⟩ := hx hr (({} : State C).note entry)
    exact ⟨{}, s, hRun⟩

namespace Steady

theorem stop (r : Result C α) : (stop r).Steady := by
  intro r' hGives st
  obtain rfl := gives_stop.mp hGives
  exact ⟨st, rfl⟩

theorem followedBy (hx : x.Steady) (hNext : ∀ ⦃r⦄, x.Gives r → (next r).Steady) :
    (x.followedBy next).Steady := by
  intro r hGives st
  obtain ⟨r₁, hr₁, hr⟩ := (gives_followedBy hNext).mp hGives
  obtain ⟨s₁, hRun₁⟩ := hx hr₁ st
  obtain ⟨s, hRun⟩ := hNext hr₁ hr s₁
  exact ⟨s, followedBy_eq_some_iff.mpr ⟨r₁, s₁, hRun₁, hRun⟩⟩

theorem noting (hx : x.Steady) (entry : Record) : (noting entry x).Steady := by
  intro r hGives st
  exact hx ((gives_noting hx entry).mp hGives) (st.note entry)

theorem cases {failed : ParseError C → Run C β} {succeeded : α → C → Run C β}
    (hFailed : ∀ e, (failed e).Steady) (hSucceeded : ∀ v d, (succeeded v d).Steady) :
    ∀ r, (Result.cases failed succeeded r).Steady
  | .error e => hFailed e
  | .ok (v, d) => hSucceeded v d

end Steady

end Run

/-! ## Results -/

/-- A value leads to the results that are given by it, and a failure remains. -/
def Result.Leads (step : α → C → Result C β → Prop) (r₁ : Result C α) (r : Result C β) : Prop :=
  r₁.cases (fun e => r = .error e) fun v d => step v d r

/-- The rounds of a repetition: their values, up to the cursor where one fails, or
the failure of the repetition at the cursor where one has read nothing. -/
inductive Rounds [Input C τ σ] (Q : C → Result C α → Prop) : C → Result C (List α) → Prop
  | stop {c e} (hStop : Q c (.error e)) : Rounds Q c (.ok ([], c))
  | stall {c v d} (hStall : Q c (.ok (v, d))) (hLe : ¬position c < position d) :
    Rounds Q c (.error (.new c .noProgress))
  | more {c v d r} (hRound : Q c (.ok (v, d))) (hLt : position c < position d)
    (hMore : Rounds Q d r) : Rounds Q c (r.map (v :: ·))

/-- One round, and the rounds that follow it. -/
theorem rounds_iff [Input C τ σ] {Q : C → Result C α → Prop} {r : Result C (List α)} :
    Rounds Q c r ↔ ∃ r₁, Q c r₁ ∧ r₁.cases (fun _ => r = .ok ([], c)) fun v d =>
      if position c < position d then ∃ r₂, Rounds Q d r₂ ∧ r = r₂.map (v :: ·)
        else r = .error (.new c .noProgress) := by
  constructor
  · intro h
    cases h with
    | stop hStop => exact ⟨_, hStop, rfl⟩
    | stall hStall hLe => exact ⟨_, hStall, by simp only [Result.cases_ok, if_neg hLe]⟩
    | @more _ v d r hRound hLt hMore =>
      exact ⟨_, hRound, by simp only [Result.cases_ok, if_pos hLt]; exact ⟨r, hMore, rfl⟩⟩
  · rintro ⟨e | ⟨v, d⟩, hFirst, hNext⟩
    · obtain rfl : r = .ok ([], c) := hNext
      exact .stop hFirst
    · simp only [Result.cases_ok] at hNext
      split at hNext
      · rename_i hLt
        obtain ⟨r₂, hMore, rfl⟩ := hNext
        exact .more hFirst hLt hMore
      · rename_i hLe
        subst hNext
        exact .stall hFirst hLe

/-- The rounds of a repetition whose first one must succeed. -/
inductive Rounds1 [Input C τ σ] (Q : C → Result C α → Prop) : C → Result C (List α) → Prop
  | none {c e} (hNone : Q c (.error e)) : Rounds1 Q c (.error e)
  | stall {c v d} (hStall : Q c (.ok (v, d))) (hLe : ¬position c < position d) :
    Rounds1 Q c (.error (.new c .noProgress))
  | more {c v d r} (hRound : Q c (.ok (v, d))) (hLt : position c < position d)
    (hMore : Rounds Q d r) : Rounds1 Q c (r.map (v :: ·))

theorem rounds1_iff [Input C τ σ] {Q : C → Result C α → Prop} {r : Result C (List α)} :
    Rounds1 Q c r ↔ ∃ r₁, Q c r₁ ∧ r₁.cases (fun e => r = .error e) fun v d =>
      if position c < position d then ∃ r₂, Rounds Q d r₂ ∧ r = r₂.map (v :: ·)
        else r = .error (.new c .noProgress) := by
  constructor
  · intro h
    cases h with
    | none hNone => exact ⟨_, hNone, rfl⟩
    | stall hStall hLe => exact ⟨_, hStall, by simp only [Result.cases_ok, if_neg hLe]⟩
    | @more v d r hRound hLt hMore =>
      exact ⟨_, hRound, by simp only [Result.cases_ok, if_pos hLt]; exact ⟨r, hMore, rfl⟩⟩
  · rintro ⟨e | ⟨v, d⟩, hFirst, hNext⟩
    · obtain rfl : r = .error e := hNext
      exact .none hFirst
    · simp only [Result.cases_ok] at hNext
      split at hNext
      · rename_i hLt
        obtain ⟨r₂, hMore, rfl⟩ := hNext
        exact .more hFirst hLt hMore
      · rename_i hLe
        subst hNext
        exact .stall hFirst hLe

/-! ## Parsers -/

namespace Parser

open Run

/-- A parser gives the results in a relation, whatever the state is, and no other
ones. -/
structure Means (p : Parser C α) (Q : C → Result C α → Prop) : Prop where
  gives : ∀ {c r}, Gives (p c) r ↔ Q c r
  steady : ∀ c, Steady (p c)

namespace Means

variable {p : Parser C α} {q : Parser C β} {Q : C → Result C α → Prop}
  {R : C → Result C β → Prop}

theorem run (h : p.Means Q) {r : Result C α} (hr : Q c r) (st : State C) :
    ∃ s, p c st = some (r, s) :=
  h.steady c (h.gives.mpr hr) st

theorem congr (h : p.Means Q) {Q' : C → Result C α → Prop} (hIff : ∀ c r, Q c r ↔ Q' c r) :
    p.Means Q' where
  gives := h.gives.trans (hIff _ _)
  steady := h.steady

/-- A parser that works over the results of another one. -/
theorem onResult (h : p.Means Q) {f : C → Result C α → Result C β}
    (hEq : ∀ c, q c = Run.followedBy (p c) fun r => Run.stop (f c r)) :
    q.Means fun c r => ∃ r₁, Q c r₁ ∧ r = f c r₁ where
  gives := by
    intro c r
    rw [hEq, gives_followedBy fun _ _ => .stop _]
    simp only [gives_stop, h.gives]
  steady c := by
    rw [hEq]
    exact (h.steady c).followedBy fun _ _ => .stop _

theorem map (h : p.Means Q) (f : α → β) :
    (map f p).Means fun c r => ∃ r₁, Q c r₁ ∧ r = r₁.map f :=
  h.onResult fun _ => map_eq f p

/-- Two functions applied to the value one after the other. -/
theorem map_map {f : α → β} {g : β → γ} (h : q.Means fun c r => ∃ r₁, Q c r₁ ∧ r = r₁.map f) :
    (Parser.map g q).Means fun c r => ∃ r₁, Q c r₁ ∧ r = r₁.map (g ∘ f) := by
  refine (h.map g).congr fun c r => ?_
  constructor
  · rintro ⟨_, ⟨r₁, hr₁, rfl⟩, rfl⟩
    exact ⟨r₁, hr₁, Result.map_map f g r₁⟩
  · rintro ⟨r₁, hr₁, rfl⟩
    exact ⟨_, ⟨r₁, hr₁, rfl⟩, (Result.map_map f g r₁).symm⟩

theorem bind (h : p.Means Q) {f : α → Parser C β} {R : α → C → Result C β → Prop}
    (hf : ∀ v, (f v).Means (R v)) : (bind p f).Means fun c r => ∃ r₁, Q c r₁ ∧ r₁.Leads R r := by
  have hSteady := Steady.cases (α := α) (β := β) (fun e => .stop (.error e)) fun v d =>
    (hf v).steady d
  refine ⟨?_, fun c => ?_⟩
  · intro c r
    rw [bind_eq, gives_followedBy fun r _ => hSteady r]
    refine exists_congr fun r₁ => and_congr h.gives ?_
    rcases r₁ with e | ⟨v, d⟩
    · exact gives_stop
    · exact (hf v).gives
  · rw [bind_eq]
    exact (h.steady c).followedBy fun r _ => hSteady r

/-- Two parsers one after the other, with their values combined. -/
theorem both (h : p.Means Q) (hq : q.Means R) (f : α → β → γ) :
    (Parser.map (fun pair => f pair.1 pair.2) (both p q)).Means fun c r =>
      ∃ r₁, Q c r₁ ∧ r₁.Leads (fun v d r => ∃ r₂, R d r₂ ∧ r = r₂.map (f v)) r := by
  rw [map_both_eq]
  exact h.bind fun v => hq.map (f v)

theorem marked (h : p.Means Q) (hq : q.Means R) (default : β) :
    (marked default p q).Means fun c r =>
      ∃ r₁, Q c r₁ ∧ r₁.cases (fun _ => r = .ok (default, c)) fun _ d => R d r := by
  have hSteady : ∀ c r₁, Steady (Result.cases (fun _ => Run.stop (.ok (default, c)))
      (fun _ d => q d) (r₁ : Result C α)) :=
    fun c => .cases (fun _ => .stop _) fun _ => hq.steady
  refine ⟨?_, fun c => ?_⟩
  · intro c r
    rw [marked_eq, gives_followedBy fun r _ => hSteady c r]
    refine exists_congr fun r₁ => and_congr h.gives ?_
    rcases r₁ with e | ⟨v, d⟩
    · exact gives_stop
    · exact hq.gives
  · rw [marked_eq]
    exact (h.steady c).followedBy fun r _ => hSteady c r

theorem inFreshScope (h : p.Means Q) : (inFreshScope p).Means Q where
  gives := by
    intro c r
    rw [← h.gives]
    constructor
    · rintro ⟨st, s, hRun⟩
      obtain ⟨s₁, hp, -⟩ := inFreshScope_eq_some_iff.mp hRun
      exact ⟨_, s₁, hp⟩
    · intro hGives
      obtain ⟨s, hp⟩ := h.steady c hGives { ({} : State C) with current := ∅ }
      exact ⟨{}, _, inFreshScope_eq_some_iff.mpr ⟨s, hp, rfl⟩⟩
  steady c := by
    rintro r ⟨st₀, s₀, hRun⟩ st
    obtain ⟨s₁, hp, -⟩ := inFreshScope_eq_some_iff.mp hRun
    obtain ⟨s, hp'⟩ := h.steady c ⟨_, s₁, hp⟩ { st with current := ∅ }
    exact ⟨_, inFreshScope_eq_some_iff.mpr ⟨s, hp', rfl⟩⟩

theorem tally (h : p.Means Q) (name : String) : (tally name p).Means Q where
  gives := by
    intro c r
    rw [← h.gives]
    constructor
    · rintro ⟨st, s, hRun⟩
      exact ⟨_, s, hRun⟩
    · intro hGives
      obtain ⟨s, hp⟩ := h.steady c hGives (({} : State C).tally name)
      exact ⟨{}, s, hp⟩
  steady c := by
    rintro r ⟨st₀, s₀, hRun⟩ st
    exact h.steady c ⟨_, s₀, hRun⟩ (st.tally name)

variable [Input C τ σ]

theorem orElse {q : Parser C α} {R : C → Result C α → Prop} (h : p.Means Q) (hq : q.Means R) :
    (orElse p q).Means fun c r => ∃ r₁, Q c r₁ ∧ r₁.cases
      (fun e => ∃ r₂, R c r₂ ∧ r = r₂.mapError (e.merge · c)) fun v d => r = .ok (v, d) := by
  have hSecond : ∀ c (e : ParseError C), Steady (Run.followedBy (q c) fun r =>
      Run.stop (r.mapError (e.merge · c))) := fun c e => (hq.steady c).followedBy fun _ _ => .stop _
  have hSteady : ∀ c r₁, Steady (Result.cases
      (fun e => Run.noting (.backtracked (position c) e.position) (Run.followedBy (q c)
        fun r => Run.stop (r.mapError (e.merge · c))))
      (fun v d => Run.stop (.ok (v, d))) (r₁ : Result C α)) :=
    fun c => .cases (fun e => (hSecond c e).noting _) fun _ _ => .stop _
  refine ⟨?_, fun c => ?_⟩
  · intro c r
    rw [orElse_eq, gives_followedBy fun r _ => hSteady c r]
    refine exists_congr fun r₁ => and_congr h.gives ?_
    rcases r₁ with e | ⟨v, d⟩
    · simp only [Result.cases_error, gives_noting (hSecond c e),
        gives_followedBy fun _ _ => Steady.stop _, gives_stop, hq.gives]
    · exact gives_stop
  · rw [orElse_eq]
    exact (h.steady c).followedBy fun r _ => hSteady c r

/-! ## Repetition -/

variable [InputView C τ σ] [Token τ] [LawfulInput C]

/-- A repeated parser means its rounds. A round that is followed by another one leaves
less of the source, so this is an induction on what is left. -/
theorem many (h : p.Means Q) (hReads : ∀ {c v d}, Q c (.ok (v, d)) → ∃ tokens, Reads c tokens d) :
    (many p).Means (Rounds Q) := by
  have hReading : p.Reading := by
    rintro c (e | ⟨v, d⟩) hGives
    · trivial
    · exact hReads (h.gives.mp hGives)
  suffices hMany : ∀ n c, left c < n →
      (∀ r, Gives (Parser.many p c) r ↔ Rounds Q c r) ∧ Steady (Parser.many p c) from
    ⟨(hMany _ _ (Nat.lt_succ_self _)).1 _, fun c => (hMany _ c (Nat.lt_succ_self _)).2⟩
  intro n
  induction n with
  | zero => exact fun c hLt => absurd hLt (Nat.not_lt_zero _)
  | succ n ih =>
    intro c hLt
    have hSteady : ∀ ⦃r⦄, Gives (p c) r → Steady (Result.cases (fun _ => Run.stop (.ok ([], c)))
        (fun v d => if position c < position d then Parser.map (v :: ·) (Parser.many p) d
          else stalled c) r) := by
      rintro (e | ⟨v, d⟩) hGives
      · exact .stop _
      · obtain ⟨tokens, hRead⟩ := hReads (h.gives.mp hGives)
        simp only [Result.cases_ok]
        split
        · rename_i hMoved
          have hLeft := hRead.left_lt hMoved
          rw [map_eq]
          exact (ih d (by omega)).2.followedBy fun _ _ => .stop _
        · exact (Steady.stop _).noting _
    rw [many_eq hReading]
    refine ⟨fun r => ?_, (h.steady c).followedBy hSteady⟩
    rw [gives_followedBy hSteady, rounds_iff]
    refine exists_congr fun r₁ => ?_
    rw [h.gives]
    refine and_congr_right fun hFirst => ?_
    rcases r₁ with e | ⟨v, d⟩
    · exact gives_stop
    · obtain ⟨tokens, hRead⟩ := hReads hFirst
      simp only [Result.cases_ok]
      split
      · rename_i hMoved
        have hLeft := hRead.left_lt hMoved
        rw [map_eq, gives_followedBy fun _ _ => .stop _]
        simp only [gives_stop, (ih d (by omega)).1]
      · exact (gives_noting (.stop _) _).trans gives_stop

/-- A repetition without values. -/
theorem skipMany (h : p.Means Q)
    (hReads : ∀ {c v d}, Q c (.ok (v, d)) → ∃ tokens, Reads c tokens d) :
    (skipMany p).Means fun c r => ∃ rs, Rounds Q c rs ∧ r = rs.map fun _ => () := by
  unfold Parser.skipMany
  rw [fold_eq_map_many]
  exact (h.many hReads).map _

/-- A parser that must succeed before it is repeated. -/
theorem many1 (h : p.Means Q)
    (hReads : ∀ {c v d}, Q c (.ok (v, d)) → ∃ tokens, Reads c tokens d) :
    (many1 p).Means (Rounds1 Q) := by
  have hMany := fun v : α => (h.many hReads).map (v :: ·)
  have hSteady : ∀ c, ∀ r, Steady (Result.cases (fun e => Run.stop (.error e))
      (fun v d => if position c < position d then Parser.map (v :: ·) (Parser.many p) d
        else stalled c) r) := by
    refine fun c => .cases (fun e => .stop _) fun v d => ?_
    split
    · exact (hMany _).steady d
    · exact (Steady.stop _).noting _
  refine ⟨?_, fun c => ?_⟩
  · intro c r
    rw [many1_eq, gives_followedBy fun r _ => hSteady c r, rounds1_iff]
    refine exists_congr fun r₁ => and_congr h.gives ?_
    rcases r₁ with e | ⟨v, d⟩
    · exact gives_stop
    · simp only [Result.cases_ok]
      split
      · exact (hMany _).gives
      · exact (gives_noting (.stop _) _).trans gives_stop
  · rw [many1_eq]
    exact (h.steady c).followedBy fun r _ => hSteady c r

theorem skipMany1 (h : p.Means Q)
    (hReads : ∀ {c v d}, Q c (.ok (v, d)) → ∃ tokens, Reads c tokens d) :
    (skipMany1 p).Means fun c r => ∃ rs, Rounds1 Q c rs ∧ r = rs.map fun _ => () := by
  unfold Parser.skipMany1
  rw [fold1_eq_map_many1]
  exact (h.many1 hReads).map _

end Means

end Parser

end Packrat

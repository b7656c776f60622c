import Packrat.Proofs.Plain

/-!
# Counters

How often the counted parts of a grammar are run. A run of a plain grammar raises the
counters by amounts that depend neither on the depth to which references are followed
nor on anything else in the state.

* `State.counter`: the value of a counter;
* `Program.plain_run_counts`: two runs of a plain grammar from states with the same
  counters, of which none is lowered.
-/

namespace Packrat

open Input

namespace State

variable {C : Type} (st : State C) (x : String)

/-- The value of a counter. -/
def counter : Nat :=
  st.counts.getD x 0

@[simp]
theorem counter_note (entry : Record) : (st.note entry).counter x = st.counter x := rfl

@[simp]
theorem counter_store (a : Address) (p : Place) (r : Result C Value) :
    (st.store a p r).counter x = st.counter x := by
  obtain ⟨scope, path⟩ := a
  cases scope <;> rfl

@[simp]
theorem counter_clear (a : Address) : (st.clear a).counter x = st.counter x := by
  obtain ⟨scope, path⟩ := a
  cases scope <;> rfl

theorem counter_tally (name : String) :
    (st.tally name).counter x = if name = x then st.counter x + 1 else st.counter x := by
  unfold counter tally
  rw [Std.TreeMap.getD_insert]
  by_cases hName : name = x
  · subst hName
    simp
  · have hCompare : compare name x ≠ .eq := fun h => hName (Std.LawfulEqOrd.eq_of_compare h)
    rw [if_neg hCompare, if_neg hName]

end State

variable {C τ σ α : Type} [Input C τ σ] [InputView C τ σ] [Token τ] [ToValue τ] [ToValue σ]
  [LawfulInput C]

/-- Two runs with the same counters, of which none falls below its value in a state. -/
def Coupling.counted (base : State C) : Coupling (.diagonal C) where
  within _ := True
  state st st' := st.counts = st'.counts ∧ ∀ x, base.counter x ≤ st.counter x
  record _ _ := True
  within_reads _ _ := trivial
  note h _ := h
  tally := by
    rintro st st' name ⟨hCounts, hBase⟩
    refine ⟨by unfold State.tally; rw [hCounts], fun x => Nat.le_trans (hBase x) ?_⟩
    rw [State.counter_tally]
    split
    · exact Nat.le_succ _
    · exact Nat.le_refl _
  backtracked _ _ _ := trivial
  stalled _ _ := trivial

namespace Coupling

variable {base : State C} {p q : Parser C Value}

theorem counted_inFreshScope (h : (counted base).Simulates Eq p q) :
    (counted base).Simulates Eq (.inFreshScope p) (.inFreshScope q) := by
  intro c d st st' hWithin hCursor hState r s hRun
  have hFresh : (counted base).state { st with current := ∅ } { st' with current := ∅ } := hState
  obtain ⟨s₁, hp, rfl⟩ := Parser.inFreshScope_eq_some_iff.mp hRun
  obtain ⟨r', s', hq, hOut, hState'⟩ := h hWithin hCursor hFresh hp
  exact ⟨r', _, Parser.inFreshScope_eq_some_iff.mpr ⟨s', hq, rfl⟩, hOut, hState'⟩

end Coupling

namespace Program

variable [LawfulToken τ] {P : Program} {g : Grammar} {c : C} {m n : Nat} {a b : Address}
  {r : Result C Value} {st st' s : State C}

theorem plain_level_counted (P : Program) (base : State C) (hLe : m ≤ n) (x : Reference) :
    (Coupling.counted base).Simulates Eq (P.plain.level m x) (P.plain.level n x) := by
  induction m generalizing n x with
  | zero => exact .silent
  | succ m ih =>
    obtain ⟨n, rfl⟩ := Nat.exists_eq_add_one_of_ne_zero (Nat.ne_zero_of_lt hLe)
    exact P.alike_self.plain.simulates_succ False.elim Coupling.counted_inFreshScope
      (ih (Nat.le_of_succ_le_succ hLe)) x

/-- Two runs of a plain grammar, the second one following references at least as deeply,
raise the counters by the same amounts. -/
theorem plain_run_counts (hLe : m ≤ n)
    (hRun : g.plain.parser (P.plain.level m) a c st = some (r, s))
    (hCounts : st'.counts = st.counts) :
    (∃ s', g.plain.parser (P.plain.level n) b c st' = some (r, s') ∧ s'.counts = s.counts) ∧
      ∀ x, st.counter x ≤ s.counter x := by
  have hCall := P.plain_level_counted st hLe
  have hSimulates := g.alike_self.plain.simulates hCall False.elim
    Coupling.counted_inFreshScope a b False.elim
  have hState : (Coupling.counted st).state st st' := ⟨hCounts.symm, fun _ => Nat.le_refl _⟩
  obtain ⟨r', s', hRun', hOut, hCounts', hBase⟩ := hSimulates trivial rfl hState hRun
  obtain rfl := hOut.eq
  exact ⟨⟨s', hRun', hCounts'.symm⟩, hBase⟩

end Program

end Packrat

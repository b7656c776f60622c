import Mathlib.Data.Option.Basic
import Packrat.Proofs.Alignment
import Packrat.Parser.Choice
import Packrat.Parser.Memo
import Packrat.Parser.Repeat

/-!
# Simulation of parsers

A parser over one kind of sources is simulated by a parser over another one if,
whenever the first gives a result, the second gives a corresponding result. The
states of the two runs are in a relation all the while, which is a parameter.

* `Coupling`: relations between the states and between the records of two runs;
* `Coupling.Simulates`: simulation, with one lemma for every way to build a
  parser from other ones: `Simulates.onResult`, `Simulates.bind`,
  `Simulates.orElse`, `Simulates.foldFrom` and those made of them.
-/

namespace Packrat

open Input List

/-- Relations between the states and between the records of two runs, for runs
that stay within a set of cursors. -/
structure Coupling {C D τ σ υ ρ : Type} [Input C τ σ] [InputView C τ σ] [Token τ] [ToValue τ]
    [ToValue σ] [Input D υ ρ] [InputView D υ ρ] [Token υ] [ToValue υ] [ToValue ρ]
    (A : Alignment C D) where
  within : C → Prop
  state : State C → State D → Prop
  record : Record → Record → Prop
  within_reads : ∀ {c c' tokens}, within c → Reads c tokens c' → within c'
  note : ∀ {st st' x y}, state st st' → record x y → state (st.note x) (st'.note y)
  tally : ∀ {st st'} (name), state st st' → state (st.tally name) (st'.tally name)
  backtracked : ∀ {c d c' d'}, within c → A.cursor c d → A.Reaches c d c' d' →
    record (.backtracked (position c) (position c')) (.backtracked (position d) (position d'))
  stalled : ∀ {c d}, within c → A.cursor c d →
    record (.stalled (position c)) (.stalled (position d))

namespace Coupling

variable {C D τ σ υ ρ α β α' β' : Type}
  [Input C τ σ] [InputView C τ σ] [Token τ] [ToValue τ] [ToValue σ]
  [Input D υ ρ] [InputView D υ ρ] [Token υ] [ToValue υ] [ToValue ρ]
  {A : Alignment C D} (K : Coupling A)

/-- Where the first parser gives a result, the second one gives a corresponding
result, with values in the relation `V`. -/
def Simulates (V : α → β → Prop) (p : Parser C α) (q : Parser D β) : Prop :=
  ∀ ⦃c d st st'⦄, K.within c → A.cursor c d → K.state st st' → ∀ ⦃r s⦄, p c st = some (r, s) →
    ∃ r' s', q d st' = some (r', s') ∧ A.Outcome V c d r r' ∧ K.state s s'

variable {K} {V : α → β → Prop} {W : α' → β' → Prop} {p : Parser C α} {q : Parser D β}

theorem within_reaches {c c' : C} {d d' : D} (h : K.within c) (k : A.Reaches c d c' d') :
    K.within c' :=
  K.within_reads h k.left.choose_spec

namespace Simulates

/-- Either the first parser gives no result, or both give corresponding ones. -/
theorem run_cases (h : K.Simulates V p q) {c : C} {d : D} {st : State C} {st' : State D}
    (hWithin : K.within c) (hCursor : A.cursor c d) (hState : K.state st st') :
    p c st = none ∨ ∃ r s r' s', p c st = some (r, s) ∧ q d st' = some (r', s') ∧
      A.Outcome V c d r r' ∧ K.state s s' := by
  rcases hp : p c st with _ | ⟨r, s⟩
  · exact .inl rfl
  · obtain ⟨r', s', hq, hOut, hState'⟩ := h hWithin hCursor hState hp
    exact .inr ⟨r, s, r', s', rfl, hq, hOut, hState'⟩

theorem mono (h : K.Simulates V p q) {V' : α → β → Prop} (hValue : ∀ {v w}, V v w → V' v w) :
    K.Simulates V' p q := by
  intro c d st st' hWithin hCursor hState r s hp
  obtain ⟨r', s', hq, hOut, hState'⟩ := h hWithin hCursor hState hp
  exact ⟨r', s', hq, hOut.mono fun _ _ => hValue, hState'⟩

theorem silent : K.Simulates V .silent q := by
  intro c d st st' _ _ _ r s h
  cases h

theorem pure {v : α} {w : β} (hValue : V v w) : K.Simulates V (.pure v) (.pure w) := by
  intro c d st st' _ hCursor hState r s h
  cases h
  exact ⟨_, _, rfl, .ok hValue (.refl hCursor), hState⟩

theorem tally (h : K.Simulates V p q) (name : String) :
    K.Simulates V (.tally name p) (.tally name q) := by
  intro c d st st' hWithin hCursor hState r s hp
  exact h hWithin hCursor (K.tally name hState) hp

/-! ## One parser -/

theorem onResult (h : K.Simulates V p q) {f : C → Result C α → Result C α'}
    {g : D → Result D β → Result D β'}
    (hOutcome : ∀ {c d r r'}, A.cursor c d → A.Outcome V c d r r' →
      A.Outcome W c d (f c r) (g d r')) :
    K.Simulates W (.onResult f p) (.onResult g q) := by
  intro c d st st' hWithin hCursor hState r s hRun
  unfold Parser.onResult at hRun ⊢
  rcases h.run_cases hWithin hCursor hState with hp | ⟨r₁, s₁, r₁', s₁', hp, hq, hOut, hState'⟩
  · simp [hp] at hRun
  · simp only [hp, Option.some.injEq, Prod.mk.injEq] at hRun
    obtain ⟨rfl, rfl⟩ := hRun
    exact ⟨_, _, by rw [hq], hOutcome hCursor hOut, hState'⟩

theorem map (h : K.Simulates V p q) {f : α → α'} {g : β → β'}
    (hValue : ∀ {v w}, V v w → W (f v) (g w)) : K.Simulates W (.map f p) (.map g q) :=
  h.onResult fun _ hOut => by
    cases hOut with
    | ok hv hReaches => exact .ok (hValue hv) hReaches
    | error hFailure => exact .error hFailure

theorem replace (h : K.Simulates V p q) {v : α'} {w : β'} (hValue : W v w) :
    K.Simulates W (.replace v p) (.replace w q) :=
  h.map fun _ => hValue

theorem label (h : K.Simulates V p q) (name : String) :
    K.Simulates V (.label name p) (.label name q) :=
  h.onResult fun _ hOut => by
    cases hOut with
    | ok hv hReaches => exact .ok hv hReaches
    | error hFailure => exact .error (hFailure.expecting name)

theorem lexeme (h : K.Simulates V p q) (name : String) :
    K.Simulates V (.lexeme name p) (.lexeme name q) :=
  h.onResult fun hCursor hOut => by
    cases hOut with
    | ok hv hReaches => exact .ok hv hReaches
    | error hFailure => exact .error ((hFailure.moveTo hCursor).expecting name)

theorem convert (h : K.Simulates V p q) (name : String) (reason : Reason) {f : α → Option α'}
    {g : β → Option β'} (hValue : ∀ {v w}, V v w → Option.Rel W (f v) (g w)) :
    K.Simulates W (.convert name reason f p) (.convert name reason g q) :=
  h.onResult fun hCursor hOut => by
    cases hOut with
    | @ok v w _ _ hv hReaches =>
      have hRel := hValue hv
      dsimp only
      generalize f v = x at hRel ⊢
      generalize g w = y at hRel ⊢
      cases hRel with
      | some hw => exact .ok hw hReaches
      | none => exact .error ((Alignment.Failure.new hCursor reason).expecting name)
    | error hFailure => exact .error hFailure

theorem optional (h : K.Simulates V p q) :
    K.Simulates (Option.Rel V) (.optional p) (.optional q) :=
  h.onResult fun hCursor hOut => by
    cases hOut with
    | ok hv hReaches => exact .ok (.some hv) hReaches
    | error _ => exact .ok .none (.refl hCursor)

theorem option (h : K.Simulates V p q) {v : α} {w : β} (hDefault : V v w) :
    K.Simulates V (.option v p) (.option w q) :=
  h.onResult fun hCursor hOut => by
    cases hOut with
    | ok hv hReaches => exact .ok hv hReaches
    | error _ => exact .ok hDefault (.refl hCursor)

theorem notFollowedBy (h : K.Simulates V p q) :
    K.Simulates (fun _ _ => True) (.notFollowedBy p) (.notFollowedBy q) :=
  h.onResult fun hCursor hOut => by
    cases hOut with
    | ok _ _ => exact .error (.new hCursor _)
    | error _ => exact .ok trivial (.refl hCursor)

/-! ## Two parsers -/

section

variable {p₂ : Parser C α'} {q₂ : Parser D β'}

theorem bind (h : K.Simulates V p q) {f : α → Parser C α'} {g : β → Parser D β'}
    (hNext : ∀ {v w}, V v w → K.Simulates W (f v) (g w)) :
    K.Simulates W (.bind p f) (.bind q g) := by
  intro c d st st' hWithin hCursor hState r s hRun
  unfold Parser.bind at hRun ⊢
  rcases h.run_cases hWithin hCursor hState with hp | ⟨r₁, s₁, r₁', s₁', hp, hq, hOut, hState'⟩
  · simp [hp] at hRun
  · cases hOut with
    | ok hv hReaches =>
      simp only [hp] at hRun
      obtain ⟨r₂, s₂, hg, hOut₂, hState₂⟩ :=
        hNext hv (within_reaches hWithin hReaches) hReaches.cursor hState' hRun
      exact ⟨r₂, s₂, by rw [hq]; exact hg, hOut₂.trans hReaches, hState₂⟩
    | error hFailure =>
      simp only [hp, Option.some.injEq, Prod.mk.injEq] at hRun
      obtain ⟨rfl, rfl⟩ := hRun
      exact ⟨_, _, by rw [hq], .error hFailure, hState'⟩

/-- Two parsers one after the other are a case of `bind`. -/
theorem both_eq_bind {E : Type} {γ δ : Type} (p : Parser E γ) (q : Parser E δ) :
    Parser.both p q = .bind p fun v => .map (fun w => (v, w)) q := by
  funext c st
  unfold Parser.both Parser.bind Parser.map Parser.onResult
  rcases p c st with _ | ⟨e | ⟨v, rest⟩, s⟩
  · rfl
  · rfl
  · rcases hq : q rest s with _ | ⟨e | ⟨w, rest'⟩, s'⟩ <;> simp [hq]

theorem both (h : K.Simulates V p q) (h₂ : K.Simulates W p₂ q₂) :
    K.Simulates (fun x y => V x.1 y.1 ∧ W x.2 y.2) (.both p p₂) (.both q q₂) := by
  rw [both_eq_bind, both_eq_bind]
  exact h.bind fun hv => h₂.map fun hw => ⟨hv, hw⟩

theorem seqRight (h : K.Simulates V p q) (h₂ : K.Simulates W p₂ q₂) :
    K.Simulates W (.seqRight p p₂) (.seqRight q q₂) :=
  (h.both h₂).map fun hv => hv.2

theorem seqLeft (h : K.Simulates V p q) (h₂ : K.Simulates W p₂ q₂) :
    K.Simulates V (.seqLeft p p₂) (.seqLeft q q₂) :=
  (h.both h₂).map fun hv => hv.1

theorem marked (h : K.Simulates V p q) (h₂ : K.Simulates W p₂ q₂) {v : α'} {w : β'}
    (hDefault : W v w) : K.Simulates W (.marked v p p₂) (.marked w q q₂) := by
  intro c d st st' hWithin hCursor hState r s hRun
  unfold Parser.marked at hRun ⊢
  rcases h.run_cases hWithin hCursor hState with hp | ⟨r₁, s₁, r₁', s₁', hp, hq, hOut, hState'⟩
  · simp [hp] at hRun
  · cases hOut with
    | ok _ hReaches =>
      simp only [hp] at hRun
      obtain ⟨r₂, s₂, hg, hOut₂, hState₂⟩ :=
        h₂ (within_reaches hWithin hReaches) hReaches.cursor hState' hRun
      exact ⟨r₂, s₂, by rw [hq]; exact hg, hOut₂.trans hReaches, hState₂⟩
    | error _ =>
      simp only [hp, Option.some.injEq, Prod.mk.injEq] at hRun
      obtain ⟨rfl, rfl⟩ := hRun
      exact ⟨_, _, by rw [hq], .ok hDefault (.refl hCursor), hState'⟩

end

theorem orElse {p₂ : Parser C α} {q₂ : Parser D β} (h : K.Simulates V p q)
    (h₂ : K.Simulates V p₂ q₂) : K.Simulates V (.orElse p p₂) (.orElse q q₂) := by
  intro c d st st' hWithin hCursor hState r s hRun
  unfold Parser.orElse at hRun ⊢
  rcases h.run_cases hWithin hCursor hState with hp | ⟨r₁, s₁, r₁', s₁', hp, hq, hOut, hState'⟩
  · simp [hp] at hRun
  · cases hOut with
    | ok hv hReaches =>
      simp only [hp, Option.some.injEq, Prod.mk.injEq] at hRun
      obtain ⟨rfl, rfl⟩ := hRun
      exact ⟨_, _, by rw [hq], .ok hv hReaches, hState'⟩
    | @error e f hFailure =>
      simp only [hp] at hRun
      have hNoted := K.note hState' (K.backtracked hWithin hCursor hFailure.reaches)
      rw [← hFailure.left_position, ← hFailure.right_position] at hNoted
      rcases h₂.run_cases hWithin hCursor hNoted with
        hp₂ | ⟨r₂, s₂, r₂', s₂', hp₂, hq₂, hOut₂, hState₂⟩
      · simp [hp₂] at hRun
      · cases hOut₂ with
        | ok hv hReaches =>
          simp only [hp₂, Option.some.injEq, Prod.mk.injEq] at hRun
          obtain ⟨rfl, rfl⟩ := hRun
          exact ⟨_, _, by simp only [hq, hq₂], .ok hv hReaches, hState₂⟩
        | error hFailure₂ =>
          simp only [hp₂, Option.some.injEq, Prod.mk.injEq] at hRun
          obtain ⟨rfl, rfl⟩ := hRun
          exact ⟨_, _, by simp only [hq, hq₂], .error (hFailure.merge hFailure₂ hCursor),
            hState₂⟩

/-! ## Repetition -/

theorem stall {c : C} {d : D} {st : State C} {st' : State D} (hWithin : K.within c)
    (hCursor : A.cursor c d) (hState : K.state st st') :
    A.Outcome W c d (Parser.stall (β := α') c st).1 (Parser.stall (β := β') d st').1 ∧
      K.state (Parser.stall (β := α') c st).2 (Parser.stall (β := β') d st').2 :=
  ⟨.error (.new hCursor _), K.note hState (K.stalled hWithin hCursor)⟩

section

variable [LawfulInput C] [LawfulInput D] {f : α' → α → α'} {g : β' → β → β'}

/-- The two repetitions make the same rounds. The second one has enough rounds,
since each of them leaves less of its source. -/
theorem foldFrom (h : K.Simulates V p q)
    (hCombine : ∀ {x y v w}, W x y → V v w → W (f x v) (g y w)) (n : Nat) :
    ∀ {m x y c d st st' r s}, W x y → K.within c → A.cursor c d → K.state st st' →
      Input.left d < m → Parser.foldFrom f p n x c st = some (r, s) →
      ∃ r' s', Parser.foldFrom g q m y d st' = some (r', s') ∧ A.Outcome W c d r r' ∧
        K.state s s' := by
  induction n with
  | zero => intro m x y c d st st' r s _ _ _ _ _ hRun; cases hRun
  | succ n ih =>
    intro m x y c d st st' r s hAcc hWithin hCursor hState hRounds hRun
    obtain ⟨m, rfl⟩ := Nat.exists_eq_add_one_of_ne_zero (Nat.ne_zero_of_lt hRounds)
    unfold Parser.foldFrom at hRun ⊢
    rcases h.run_cases hWithin hCursor hState with hp | ⟨r₁, s₁, r₁', s₁', hp, hq, hOut, hState'⟩
    · simp [hp] at hRun
    · cases hOut with
      | @ok v w c' d' hv hReaches =>
        have hIff := hReaches.position_lt_iff hCursor
        simp only [hp] at hRun
        simp only [hq]
        by_cases hLt : position c < position c'
        · have hLt' := hIff.mp hLt
          have hLeft := hReaches.left_lt hLt'
          rw [if_pos hLt] at hRun
          rw [if_pos hLt']
          obtain ⟨r₂, s₂, hRun₂, hOut₂, hState₂⟩ := ih (m := m) (hCombine hAcc hv)
            (within_reaches hWithin hReaches) hReaches.cursor hState' (by omega) hRun
          exact ⟨r₂, s₂, hRun₂, hOut₂.trans hReaches, hState₂⟩
        · rw [if_neg hLt] at hRun
          rw [if_neg (hIff.not.mp hLt)]
          cases hRun
          exact ⟨_, _, rfl, stall hWithin hCursor hState'⟩
      | error _ =>
        simp only [hp, Option.some.injEq, Prod.mk.injEq] at hRun
        obtain ⟨rfl, rfl⟩ := hRun
        exact ⟨_, _, by rw [hq], .ok hAcc (.refl hCursor), hState'⟩

theorem fold (h : K.Simulates V p q)
    (hCombine : ∀ {x y v w}, W x y → V v w → W (f x v) (g y w)) {x : α'} {y : β'}
    (hAcc : W x y) : K.Simulates W (.fold f x p) (.fold g y q) := by
  intro c d st st' hWithin hCursor hState r s hRun
  exact h.foldFrom hCombine _ hAcc hWithin hCursor hState (Nat.lt_succ_self _) hRun

theorem fold1 (h : K.Simulates V p q)
    (hCombine : ∀ {x y v w}, W x y → V v w → W (f x v) (g y w)) {x : α'} {y : β'}
    (hAcc : W x y) : K.Simulates W (.fold1 f x p) (.fold1 g y q) := by
  intro c d st st' hWithin hCursor hState r s hRun
  unfold Parser.fold1 at hRun ⊢
  rcases h.run_cases hWithin hCursor hState with hp | ⟨r₁, s₁, r₁', s₁', hp, hq, hOut, hState'⟩
  · simp [hp] at hRun
  · cases hOut with
    | @ok v w c' d' hv hReaches =>
      have hIff := hReaches.position_lt_iff hCursor
      simp only [hp] at hRun
      simp only [hq]
      by_cases hLt : position c < position c'
      · rw [if_pos hLt] at hRun
        rw [if_pos (hIff.mp hLt)]
        obtain ⟨r₂, s₂, hRun₂, hOut₂, hState₂⟩ := h.fold hCombine (hCombine hAcc hv)
          (within_reaches hWithin hReaches) hReaches.cursor hState' hRun
        exact ⟨r₂, s₂, hRun₂, hOut₂.trans hReaches, hState₂⟩
      · rw [if_neg hLt] at hRun
        rw [if_neg (hIff.not.mp hLt)]
        cases hRun
        exact ⟨_, _, rfl, stall hWithin hCursor hState'⟩
    | error hFailure =>
      simp only [hp, Option.some.injEq, Prod.mk.injEq] at hRun
      obtain ⟨rfl, rfl⟩ := hRun
      exact ⟨_, _, by rw [hq], .error hFailure, hState'⟩

theorem many (h : K.Simulates V p q) : K.Simulates (Forall₂ V) (.many p) (.many q) :=
  (h.fold (W := Forall₂ V) (fun hAcc hv => .cons hv hAcc) .nil).map fun hv => rel_reverse hv

theorem many1 (h : K.Simulates V p q) : K.Simulates (Forall₂ V) (.many1 p) (.many1 q) :=
  (h.fold1 (W := Forall₂ V) (fun hAcc hv => .cons hv hAcc) .nil).map fun hv => rel_reverse hv

theorem skipMany (h : K.Simulates V p q) :
    K.Simulates (fun _ _ => True) (.skipMany p) (.skipMany q) :=
  h.fold (fun _ _ => trivial) trivial

theorem skipMany1 (h : K.Simulates V p q) :
    K.Simulates (fun _ _ => True) (.skipMany1 p) (.skipMany1 q) :=
  h.fold1 (fun _ _ => trivial) trivial

end

end Simulates

end Coupling

end Packrat

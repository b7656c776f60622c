import Mathlib.Data.Finset.Card
import Mathlib.Data.Finset.Prod
import Mathlib.Order.Monotone.Basic
import Packrat.Proofs.Plain

/-!
# How deep references have to be followed

A name at a cursor is a question, and a run from a start can ask only so many of
them: one for each name and each number of tokens read. Following references one
deeper answers more of these questions or none, and once none is added none will
ever be. So the number of questions bounds the depth that is needed.

* `Program.answered`: the questions answered at a depth;
* `Program.Settled`: following references one deeper adds no result, with
  `Settled.succ`: nor does it later;
* `Program.settled_depth`: the names of a program are settled at the number of
  questions;
* `Program.Yields.run`: what a plain grammar yields is found at this depth.
-/

namespace Packrat

open Input List

/-- The names of a program. -/
def Program.names (P : Program) : List Reference :=
  P.rules.map (fun x => .rule x.1) ++ P.shared.map fun x => .shared x.1

namespace Program

theorem length_names (P : Program) : P.names.length = P.rules.length + P.shared.length := by
  simp [names]

@[simp]
theorem names_plain (P : Program) : P.plain.names = P.names := by
  simp only [names, plain, map_map]
  rfl

variable {C τ σ : Type} [Input C τ σ] {P : Program}

theorem depth_eq (P : Program) (c : C) : P.depth c = P.names.length * (left c + 1) + 1 := by
  rw [length_names]
  rfl

@[simp]
theorem depth_plain (P : Program) (c : C) : P.plain.depth c = P.depth c := by
  simp [depth_eq]

variable [Token τ] [ToValue τ] [ToValue σ]

/-- Only the names of a program lead to a result. -/
theorem mem_names_of_level {n : Nat} {r : Reference} {c : C} {st : State C}
    {x : Result C Value × State C} (h : P.level n r c st = some x) : r ∈ P.names := by
  cases n with
  | zero => cases h
  | succ n =>
    cases r with
    | rule name =>
      rcases hLookup : P.rules.lookup name with _ | g
      · simp only [level, hLookup] at h
        cases h
      · exact mem_append_left _ (mem_map.mpr ⟨(name, g), mem_of_lookup hLookup, rfl⟩)
    | shared name =>
      rcases hLookup : P.shared.lookup name with _ | g
      · simp only [level, hLookup] at h
        cases h
      · exact mem_append_right _ (mem_map.mpr ⟨(name, g), mem_of_lookup hLookup, rfl⟩)

variable [InputView C τ σ]

open Classical in
/-- The names that give a result at a depth, each with a number of tokens after
which it does. -/
noncomputable def answered (P : Program) (start : C) (n : Nat) : Finset (Reference × Nat) :=
  (P.names.toFinset ×ˢ Finset.range (left start + 1)).filter fun x =>
    ∃ c tokens, Reads start tokens c ∧ tokens.length = x.2 ∧ (P.plain.level n x.1 c {}).isSome

variable {start : C} {m n : Nat}

/-! ## Questions -/

theorem mem_answered_iff {r : Reference} {k : Nat} :
    (r, k) ∈ P.answered start n ↔ (r ∈ P.names ∧ k < left start + 1) ∧
      ∃ c tokens, Reads start tokens c ∧ tokens.length = k ∧ (P.plain.level n r c {}).isSome := by
  simp only [answered, Finset.mem_filter, Finset.mem_product, List.mem_toFinset, Finset.mem_range]

theorem card_answered_le (P : Program) (start : C) (n : Nat) :
    (P.answered start n).card ≤ P.names.length * (left start + 1) := by
  classical
  unfold answered
  refine (Finset.card_filter_le _ _).trans ?_
  rw [Finset.card_product, Finset.card_range]
  exact Nat.mul_le_mul_right _ P.names.toFinset_card_le

variable [LawfulInput C]

/-- A question that is answered is answered wherever the run stands then, since
the number of tokens read determines the cursor. -/
theorem run_of_mem_answered {r : Reference} {c : C} {tokens : List τ}
    (hReads : Reads start tokens c) (hMem : (r, tokens.length) ∈ P.answered start n) :
    ∃ x, P.plain.level n r c {} = some x := by
  obtain ⟨-, d, tokens', hReads', hLength, hSome⟩ := mem_answered_iff.mp hMem
  obtain rfl := hReads.eq_of_length_eq hReads' hLength.symm
  exact Option.isSome_iff_exists.mp hSome

variable [LawfulToken τ]

open Coupling

theorem mem_answered {r : Reference} {c : C} {tokens : List τ} {st : State C}
    {x : Result C Value × State C} (hReads : Reads start tokens c)
    (hRun : P.plain.level n r c st = some x) : (r, tokens.length) ∈ P.answered start n := by
  obtain ⟨s', hRun', -⟩ := free_run (P.plain_level_mono (Nat.le_refl n) r) hReads hRun {}
  have hLength : tokens.length < left start + 1 := by
    have hLe := length_le_widthOf (C := C) tokens
    have hLeft := hReads.left_eq
    omega
  have hName := mem_names_of_level hRun
  rw [names_plain] at hName
  exact mem_answered_iff.mpr ⟨⟨hName, hLength⟩, c, tokens, hReads, rfl, by rw [hRun']; rfl⟩

theorem answered_mono (hLe : m ≤ n) : P.answered start m ⊆ P.answered start n := by
  intro ⟨r, k⟩ hMem
  obtain ⟨-, c, tokens, hReads, rfl, -⟩ := mem_answered_iff.mp hMem
  obtain ⟨⟨result, s⟩, hRun⟩ := run_of_mem_answered hReads hMem
  obtain ⟨s', hRun', -⟩ := free_run (P.plain_level_mono hLe r) hReads hRun {}
  exact mem_answered hReads hRun'

/-! ## Settled names -/

/-- Within a run from a start, following references one deeper than `n` adds no
result. -/
def Settled (P : Program) (start : C) (n : Nat) : Prop :=
  ∀ r, (free (.diagonal C) start).Simulates Eq (P.plain.level (n + 1) r) (P.plain.level n r)

theorem Settled.succ (h : P.Settled start n) : P.Settled start (n + 1) :=
  fun r => P.plain_level_succ h r

theorem Settled.answered_eq (h : P.Settled start n) :
    P.answered start n = P.answered start (n + 1) := by
  refine Finset.Subset.antisymm (answered_mono (Nat.le_succ n)) ?_
  intro ⟨r, k⟩ hMem
  obtain ⟨-, c, tokens, hReads, rfl, -⟩ := mem_answered_iff.mp hMem
  obtain ⟨⟨result, s⟩, hRun⟩ := run_of_mem_answered hReads hMem
  obtain ⟨s', hRun', -⟩ := free_run (h r) hReads hRun {}
  exact mem_answered hReads hRun'

/-- If no question is answered that was not answered before, no result is added. -/
theorem settled_of_answered_eq (h : P.answered start n = P.answered start (n + 1)) :
    P.Settled start n := by
  intro r c d st st' hWithin hCursor _ result s hRun
  obtain rfl : c = d := hCursor
  obtain ⟨tokens, hReads⟩ := hWithin
  have hMem := mem_answered hReads hRun
  rw [← h] at hMem
  obtain ⟨⟨result', s'⟩, hRun'⟩ := run_of_mem_answered hReads hMem
  -- The result at depth `n` is also the one at depth `n + 1`, in whatever state.
  obtain ⟨s₁, hShallow, hOut⟩ :=
    free_run (P.plain_level_mono (Nat.le_refl n) r) hReads hRun' st'
  obtain ⟨s₂, hDeep, -⟩ := free_run (P.plain_level_mono (Nat.le_succ n) r) hReads hRun' st
  rw [hRun] at hDeep
  cases hDeep
  exact ⟨_, s₁, hShallow, hOut, trivial⟩

theorem Settled.simulates (h : P.Settled start n) (k : Nat) (r : Reference) :
    (free (.diagonal C) start).Simulates Eq (P.plain.level (n + k) r) (P.plain.level n r) := by
  induction k generalizing n with
  | zero => exact P.plain_level_mono (Nat.le_refl n) r
  | succ k ih =>
    intro c d st st' hWithin hCursor _ result s hRun
    obtain rfl : c = d := hCursor
    obtain ⟨tokens, hReads⟩ := hWithin
    rw [show n + (k + 1) = n + 1 + k by omega] at hRun
    obtain ⟨s₁, hRun₁, -⟩ := free_run (ih h.succ) hReads hRun st
    obtain ⟨s₂, hRun₂, hOut⟩ := free_run (h r) hReads hRun₁ st'
    exact ⟨result, s₂, hRun₂, hOut, trivial⟩

/-- The names of a program are settled at the number of questions. -/
theorem settled_depth (P : Program) (start : C) (hLe : P.names.length * (left start + 1) ≤ n) :
    P.Settled start n := by
  have hEq : ∀ m, (P.answered start m).card = (P.answered start (m + 1)).card →
      P.answered start m = P.answered start (m + 1) := by
    intro m hCard
    exact Finset.eq_of_subset_of_card_le (answered_mono (Nat.le_succ m)) hCard.ge
  have hStable : ∀ k, P.names.length * (left start + 1) ≤ k → (P.answered start k).card =
      (P.answered start (P.names.length * (left start + 1))).card := by
    intro k hk
    refine Nat.stabilises_of_monotone (f := fun m => (P.answered start m).card) ?_
      (P.card_answered_le start) ?_ hk
    · exact fun _ _ hLe => Finset.card_le_card (answered_mono hLe)
    · intro m hCard
      have hSettled := settled_of_answered_eq (hEq m hCard)
      exact congrArg Finset.card hSettled.succ.answered_eq
  refine settled_of_answered_eq (hEq n ?_)
  rw [hStable n hLe, hStable (n + 1) (Nat.le_succ_of_le hLe)]

/-- At the number of questions and below it, the names have all their results. -/
theorem plain_level_simulates (P : Program) (start : C) (m : Nat)
    (hLe : P.names.length * (left start + 1) ≤ n) (r : Reference) :
    (free (.diagonal C) start).Simulates Eq (P.plain.level m r) (P.plain.level n r) := by
  rcases Nat.le_total m n with hDeep | hShallow
  · exact P.plain_level_mono hDeep r
  · obtain ⟨k, rfl⟩ := Nat.exists_eq_add_of_le hShallow
    exact (P.settled_depth start hLe).simulates k r

/-- What a plain grammar yields within a run is found where references are
followed as deeply as there are questions. -/
theorem Yields.run {g : Grammar} {c : C} {r : Result C Value} (h : P.Yields g c r)
    {tokens : List τ} (hReads : Reads start tokens c)
    (hLe : P.names.length * (left start + 1) ≤ n) (a : Address) (st : State C) :
    ∃ s, g.plain.parser (P.plain.level n) a c st = some (r, s) := by
  obtain ⟨m, s, hRun⟩ := h
  obtain ⟨s', hRun', -⟩ :=
    free_run (g.plain_simulates (P.plain_level_simulates start m hLe) .fresh a) hReads hRun st
  exact ⟨s', hRun'⟩

end Program

end Packrat

import Packrat.Parser.Literal
import Packrat.Parser.Token
import Packrat.Proofs.Simulation

/-!
# Simulation of the parsers of tokens

Cursors in relation have corresponding tokens after them, so tests that agree
on corresponding tokens accept the same ones, and literals, which are compared
with the characters of the tokens, match on both sides or on neither.

* `Parser.reads_scanAll`: a scan reads the longest run of tokens that pass;
* `Alignment.matchAll_cases`: a literal is found on both sides or on neither;
* `Simulates.satisfy`, `Simulates.take`, `Simulates.takeWhile`,
  `Simulates.literal` and the like: the parsers of tokens.
-/

namespace Packrat

open Input List

/-! ## Scans -/

namespace Parser

variable {C τ σ : Type} [Input C τ σ] [InputView C τ σ] [Token τ] [LawfulInput C]

theorem reads_scan (test : τ → Bool) (n : Nat) :
    ∀ {c : C}, (after c).length ≤ n → Reads c ((after c).takeWhile test) (scan test n c) := by
  induction n with
  | zero =>
    intro c hLength
    rw [List.length_eq_zero_iff.mp (Nat.le_zero.mp hLength)]
    exact .refl c
  | succ n ih =>
    intro c hLength
    unfold scan
    rcases hUncons : uncons c with _ | ⟨token, rest⟩
    · rw [after_eq_nil_of_uncons hUncons]
      exact .refl c
    · have hReads := reads_of_uncons hUncons
      have hAfter : after c = token :: after rest := hReads.after_eq
      rw [hAfter, takeWhile_cons]
      by_cases hTest : test token
      · simp only [hTest, if_true]
        rw [hAfter, length_cons] at hLength
        exact hReads.trans (ih (by omega))
      · simp only [hTest, Bool.false_eq_true, if_false]
        exact .refl c

/-- A scan reads the longest run of tokens that pass the test. -/
theorem reads_scanAll (test : τ → Bool) (c : C) :
    Reads c ((after c).takeWhile test) (scanAll test c) := by
  refine reads_scan test _ ?_
  rw [left_eq]
  exact length_le_widthOf _

end Parser

section

variable {C D τ σ υ ρ : Type}
  [Input C τ σ] [InputView C τ σ] [Token τ] [ToValue τ] [ToValue σ]
  [Input D υ ρ] [InputView D υ ρ] [Token υ] [ToValue υ] [ToValue ρ]

/-- Tests that agree on corresponding tokens. -/
def Alignment.Tests (A : Alignment C D) (test : τ → Bool) (test' : υ → Bool) : Prop :=
  ∀ {x y}, A.token x y → test x = test' y

/-- Slices that are made of corresponding tokens. -/
def Alignment.Slices (A : Alignment C D) (v : σ) (w : ρ) : Prop :=
  ∃ s t, Forall₂ A.token s t ∧ v = sliceOf C s ∧ w = sliceOf D t

variable {A : Alignment C D} {c : C} {d : D} {test : τ → Bool} {test' : υ → Bool}

theorem Alignment.tests_toChar (A : Alignment C D) (test : Char → Bool) :
    A.Tests (test ∘ Token.toChar) (test ∘ Token.toChar) :=
  fun h => congrArg test (A.toChar h)

theorem Alignment.Slices.value {v : σ} {w : ρ} (h : A.Slices v w) :
    A.value (ToValue.toValue v) (ToValue.toValue w) := by
  obtain ⟨s, t, hTokens, rfl, rfl⟩ := h
  exact A.slice hTokens

theorem Alignment.Tests.forall₂_takeWhile (h : A.Tests test test') {s : List τ} {t : List υ}
    (hTokens : Forall₂ A.token s t) :
    Forall₂ A.token (s.takeWhile test) (t.takeWhile test') := by
  induction hTokens with
  | nil => exact .nil
  | @cons x y s t hToken _ ih =>
    rw [takeWhile_cons, takeWhile_cons, ← h hToken]
    split
    · exact .cons hToken ih
    · exact .nil

variable [LawfulInput C] [LawfulInput D]

/-- Scans with tests that agree lead from one place to one place. -/
theorem Alignment.Tests.scanAll (h : A.Tests test test') (hCursor : A.cursor c d) :
    A.Reaches c d (Parser.scanAll test c) (Parser.scanAll test' d) ∧
      A.Slices (Input.sliceTo c (Parser.scanAll test c))
        (Input.sliceTo d (Parser.scanAll test' d)) := by
  have hLeft := Parser.reads_scanAll test c
  have hRight := Parser.reads_scanAll test' d
  have hTokens := h.forall₂_takeWhile (A.after hCursor)
  exact ⟨⟨A.reads hCursor hLeft hRight hTokens.length_eq, ⟨_, hLeft⟩, ⟨_, hRight⟩⟩,
    _, _, hTokens, LawfulInput.sliceTo_eq hLeft, LawfulInput.sliceTo_eq hRight⟩

/-- A literal is found on both sides, or else it differs from both in the same
character. -/
theorem Alignment.matchAll_cases (same : Char → Char → Bool) (wanted : List Char) :
    ∀ {c d}, A.cursor c d →
      (∃ c' d', Parser.matchAll same wanted c = .ok c' ∧ Parser.matchAll same wanted d = .ok d' ∧
        A.Reaches c d c' d' ∧ A.Slices (Input.sliceTo c c') (Input.sliceTo d d')) ∨
      ∃ x, Parser.matchAll same wanted c = .error x ∧ Parser.matchAll same wanted d = .error x := by
  suffices hMatch : ∀ {c d}, A.cursor c d →
      (∃ c' d' s t, Parser.matchAll same wanted c = .ok c' ∧
        Parser.matchAll same wanted d = .ok d' ∧ A.cursor c' d' ∧ Reads c s c' ∧ Reads d t d' ∧
        Forall₂ A.token s t) ∨
      ∃ x, Parser.matchAll same wanted c = .error x ∧
        Parser.matchAll same wanted d = .error x by
    intro c d hCursor
    rcases hMatch hCursor with ⟨c', d', s, t, hc, hd, hCursor', hs, ht, hTokens⟩ | hError
    · exact .inl ⟨c', d', hc, hd, ⟨hCursor', ⟨s, hs⟩, ⟨t, ht⟩⟩,
        s, t, hTokens, LawfulInput.sliceTo_eq hs, LawfulInput.sliceTo_eq ht⟩
    · exact .inr hError
  induction wanted with
  | nil =>
    intro c d hCursor
    exact .inl ⟨c, d, [], [], rfl, rfl, hCursor, .refl c, .refl d, .nil⟩
  | cons x wanted ih =>
    intro c d hCursor
    unfold Parser.matchAll
    rcases A.uncons_cases hCursor with ⟨hc, hd⟩ | ⟨y, z, c₁, d₁, hc, hd, hToken, hReaches⟩
    · rw [hc, hd]
      exact .inr ⟨_, rfl, rfl⟩
    · simp only [hc, hd, A.toChar hToken]
      split
      · rcases ih hReaches.cursor with ⟨c', d', s, t, hc', hd', hCursor', hs, ht, hTokens⟩ | hError
        · exact .inl ⟨c', d', y :: s, z :: t, hc', hd', hCursor', (reads_of_uncons hc).trans hs,
            (reads_of_uncons hd).trans ht, .cons hToken hTokens⟩
        · exact .inr hError
      · exact .inr ⟨_, rfl, rfl⟩

/-! ## Parsers -/

namespace Coupling.Simulates

variable {K : Coupling A}

theorem satisfy (h : A.Tests test test') :
    K.Simulates (fun x y => A.token x y ∧ test x) (.satisfy test) (.satisfy test') := by
  intro c d st st' _ hCursor hState r s hRun
  unfold Parser.satisfy at hRun ⊢
  rcases A.uncons_cases hCursor with ⟨hc, hd⟩ | ⟨x, y, c', d', hc, hd, hToken, hReaches⟩
  · simp only [hc, Option.some.injEq, Prod.mk.injEq] at hRun
    obtain ⟨rfl, rfl⟩ := hRun
    exact ⟨_, _, by rw [hd]; rfl, .error (.new hCursor _), hState⟩
  · simp only [hc] at hRun
    simp only [hd, ← h hToken]
    by_cases hTest : test x
    · rw [if_pos hTest] at hRun
      rw [if_pos hTest]
      cases hRun
      exact ⟨_, _, rfl, .ok ⟨hToken, hTest⟩ hReaches, hState⟩
    · rw [if_neg hTest] at hRun
      rw [if_neg hTest]
      cases hRun
      refine ⟨_, _, rfl, .error ?_, hState⟩
      unfold ParseError.unexpected
      rw [A.toChar hToken]
      exact .new hCursor _

/-- A token that is skipped is one that satisfies the test, without its value. -/
theorem skipIf_eq_replace {E υ' ρ' : Type} [Input E υ' ρ'] [Token υ'] (test : υ' → Bool) :
    Parser.skipIf (C := E) test = .replace () (.satisfy test) := by
  funext c st
  unfold Parser.skipIf Parser.replace Parser.map Parser.onResult Parser.satisfy
  rcases uncons c with _ | ⟨token, rest⟩
  · rfl
  · by_cases hTest : test token <;> simp [hTest]

theorem skipIf (h : A.Tests test test') :
    K.Simulates (fun _ _ => True) (.skipIf test) (.skipIf test') := by
  rw [skipIf_eq_replace, skipIf_eq_replace]
  exact (satisfy h).replace trivial

theorem endOfInput : K.Simulates (fun _ _ => True) .endOfInput .endOfInput := by
  intro c d st st' _ hCursor hState r s hRun
  unfold Parser.endOfInput at hRun ⊢
  rcases A.uncons_cases hCursor with ⟨hc, hd⟩ | ⟨x, y, c', d', hc, hd, hToken, -⟩
  · simp only [hc, Option.some.injEq, Prod.mk.injEq] at hRun
    obtain ⟨rfl, rfl⟩ := hRun
    exact ⟨_, _, by rw [hd], .ok trivial (.refl hCursor), hState⟩
  · simp only [hc, Option.some.injEq, Prod.mk.injEq] at hRun
    obtain ⟨rfl, rfl⟩ := hRun
    refine ⟨_, _, by rw [hd], .error (.expecting ?_ _), hState⟩
    unfold ParseError.unexpected
    rw [A.toChar hToken]
    exact .new hCursor _

theorem take (n : Nat) : K.Simulates A.Slices (.take n) (.take n) := by
  intro c d st st' _ hCursor hState r s hRun
  unfold Parser.take at hRun ⊢
  rcases A.splitAt_cases hCursor n with ⟨hc, hd⟩ | ⟨s, t, c', d', hc, hd, hTokens, hReaches⟩
  · simp only [hc, Option.some.injEq, Prod.mk.injEq] at hRun
    obtain ⟨rfl, rfl⟩ := hRun
    exact ⟨_, _, by rw [hd], .error (.new hCursor _), hState⟩
  · simp only [hc, Option.some.injEq, Prod.mk.injEq] at hRun
    obtain ⟨rfl, rfl⟩ := hRun
    exact ⟨_, _, by rw [hd], .ok ⟨s, t, hTokens, rfl, rfl⟩ hReaches, hState⟩

theorem takeWhile (h : A.Tests test test') :
    K.Simulates A.Slices (.takeWhile test) (.takeWhile test') := by
  intro c d st st' _ hCursor hState r s hRun
  cases hRun
  obtain ⟨hReaches, hSlices⟩ := h.scanAll hCursor
  exact ⟨_, _, rfl, .ok hSlices hReaches, hState⟩

theorem skipWhile (h : A.Tests test test') :
    K.Simulates (fun _ _ => True) (.skipWhile test) (.skipWhile test') := by
  intro c d st st' _ hCursor hState r s hRun
  cases hRun
  exact ⟨_, _, rfl, .ok trivial (h.scanAll hCursor).1, hState⟩

/-- The failures at corresponding cursors whose next token does not fit. -/
theorem unfit (hCursor : A.cursor c d) : A.Failure c d (Parser.unfit c) (Parser.unfit d) := by
  unfold Parser.unfit
  rcases A.uncons_cases hCursor with ⟨hc, hd⟩ | ⟨x, y, c', d', hc, hd, hToken, -⟩
  · rw [hc, hd]
    exact .new hCursor _
  · simp only [hc, hd, ParseError.unexpected, A.toChar hToken]
    exact .new hCursor _

theorem takeWhile1 (h : A.Tests test test') :
    K.Simulates A.Slices (.takeWhile1 test) (.takeWhile1 test') := by
  intro c d st st' _ hCursor hState r s hRun
  obtain ⟨hReaches, hSlices⟩ := h.scanAll hCursor
  have hIff : position (Parser.scanAll test c) = position c ↔
      position (Parser.scanAll test' d) = position d := by
    have hLt := hReaches.position_lt_iff hCursor
    have hLe := (Parser.reads_scanAll test c).position_eq
    have hLe' := (Parser.reads_scanAll test' d).position_eq
    omega
  unfold Parser.takeWhile1 at hRun ⊢
  dsimp only at hRun ⊢
  split at hRun
  · rename_i hStay
    cases hRun
    rw [if_pos (hIff.mp hStay)]
    exact ⟨_, _, rfl, .error (unfit hCursor), hState⟩
  · rename_i hMove
    cases hRun
    rw [if_neg (hIff.not.mp hMove)]
    exact ⟨_, _, rfl, .ok hSlices hReaches, hState⟩

theorem literal (text : String) : K.Simulates Eq (.literal text) (.literal text) := by
  intro c d st st' _ hCursor hState r s hRun
  unfold Parser.literal at hRun ⊢
  rcases A.matchAll_cases (· == ·) text.toList hCursor with
    ⟨c', d', hc, hd, hReaches, -⟩ | ⟨⟨wanted, found⟩, hc, hd⟩
  · simp only [hc, Option.some.injEq, Prod.mk.injEq] at hRun
    obtain ⟨rfl, rfl⟩ := hRun
    exact ⟨_, _, by rw [hd], .ok rfl hReaches, hState⟩
  · simp only [hc, Option.some.injEq, Prod.mk.injEq] at hRun
    obtain ⟨rfl, rfl⟩ := hRun
    exact ⟨_, _, by rw [hd], .error (.expecting (.new hCursor _) _), hState⟩

theorem literalAnyCase (text : String) :
    K.Simulates A.Slices (.literalAnyCase text) (.literalAnyCase text) := by
  intro c d st st' _ hCursor hState r s hRun
  unfold Parser.literalAnyCase at hRun ⊢
  rcases A.matchAll_cases Parser.sameButCase text.toList hCursor with
    ⟨c', d', hc, hd, hReaches, hSlices⟩ | ⟨⟨wanted, found⟩, hc, hd⟩
  · simp only [hc, Option.some.injEq, Prod.mk.injEq] at hRun
    obtain ⟨rfl, rfl⟩ := hRun
    exact ⟨_, _, by rw [hd], .ok hSlices hReaches, hState⟩
  · simp only [hc, Option.some.injEq, Prod.mk.injEq] at hRun
    obtain ⟨rfl, rfl⟩ := hRun
    exact ⟨_, _, by rw [hd], .error (.expecting (.new hCursor _) _), hState⟩

end Coupling.Simulates

end

end Packrat

import Packrat.Input.Slice.Lemmas
import Packrat.Input.Text.Lemmas
import Packrat.Proofs.TokenRuns

/-!
# Scanning and repetition

The longest run of tokens that pass a test is found in two ways. A scan goes over them with a
loop of its own, notices by the positions whether there were any, and cuts them out of the
source as a slice. A repetition of single tokens goes over them one by one, collects them,
and ends with the failure of the token after them. Both leave the same cursor and find the
same tokens, and where at least one token is needed and there is none, both fail alike.

* `LongestRun`: a run of tokens that pass a test and that does not go on;
* `LongestRun.unique`, `LongestRun.of_reads`: there is one at every cursor, and no other one;
* `Parser.ScansAlike`: the scans and the repetitions agree on a run;
* `Parser.scans_alike`: they agree on the longest run at every cursor.
-/

namespace Packrat

open Input List

variable {C τ σ : Type} [Input C τ σ] [InputView C τ σ]

/-- A run of tokens that pass a test, from a cursor to one where the input ends or where the
next token fails the test. -/
structure LongestRun (test : τ → Bool) (c : C) (tokens : List τ) (d : C) : Prop where
  reads : Reads c tokens d
  passes : ∀ token ∈ tokens, test token
  stops : uncons d = none ∨ ∃ token rest, uncons d = some (token, rest) ∧ ¬test token

variable [Token τ] [LawfulInput C] {test : τ → Bool} {c d : C} {tokens : List τ}

namespace LongestRun

/-- Where a run stops, the tokens that follow do not go on with it. -/
theorem takeWhile_after (h : LongestRun test c tokens d) : (after d).takeWhile test = [] := by
  rcases h.stops with hEnd | ⟨token, rest, hUncons, hFails⟩
  · rw [after_eq_nil_of_uncons hEnd]
    rfl
  · rw [(reads_of_uncons hUncons).after_eq]
    exact takeWhile_cons_of_neg hFails

/-- The longest run takes the tokens up to the first one that fails the test. -/
theorem eq_takeWhile (h : LongestRun test c tokens d) : tokens = (after c).takeWhile test := by
  rw [h.reads.after_eq, takeWhile_append_of_pos h.passes, h.takeWhile_after, append_nil]

theorem unique {other : List τ} {e : C} (h : LongestRun test c tokens d)
    (k : LongestRun test c other e) : other = tokens ∧ e = d := by
  obtain rfl : other = tokens := k.eq_takeWhile.trans h.eq_takeWhile.symm
  exact ⟨rfl, k.reads.eq h.reads⟩

/-- Any other run of tokens that pass the test is a first part of the longest one. -/
theorem isPrefix {other : List τ} {e : C} (h : LongestRun test c tokens d)
    (hReads : Reads c other e) (hPasses : ∀ token ∈ other, test token) : other <+: tokens := by
  rw [h.eq_takeWhile, hReads.after_eq, takeWhile_append_of_pos hPasses]
  exact prefix_append _ _

/-- What is read up to the first token that fails the test is the longest run. -/
theorem of_reads (h : Reads c ((after c).takeWhile test) d) :
    LongestRun test c ((after c).takeWhile test) d where
  reads := h
  passes := all_eq_true.mp all_takeWhile
  stops := by
    rcases uncons_cases d with ⟨hEnd, -⟩ | ⟨token, rest, hUncons, hAfter⟩
    · exact .inl hEnd
    · refine .inr ⟨token, rest, hUncons, fun hTest => ?_⟩
      -- otherwise the run would have gone on
      have hMore := h.after_eq
      conv at hMore => lhs; rw [← takeWhile_append_dropWhile (p := test) (l := after c)]
      have hRest : (after c).dropWhile test = token :: after rest :=
        (append_cancel_left hMore).trans hAfter
      exact absurd hTest (by simpa [hRest] using head?_dropWhile_not test (after c))

end LongestRun

namespace Parser

/-- The scans and the repetitions of single tokens from a cursor, in any state, which they
leave as it is: they read the given tokens up to the given cursor, and those that need at
least one token fail alike where there is none. -/
structure ScansAlike (test : τ → Bool) (c : C) (tokens : List τ) (d : C) : Prop where
  takeWhile_eq : ∀ st, takeWhile test c st = some (.ok (sliceOf C tokens, d), st)
  skipWhile_eq : ∀ st, skipWhile test c st = some (.ok ((), d), st)
  many_eq : ∀ st, many (satisfy test) c st = some (.ok (tokens, d), st)
  /-- One of them succeeds if and only if the other one does, and that is where there is a
  token. -/
  of_token : tokens ≠ [] → ∀ st, takeWhile1 test c st = some (.ok (sliceOf C tokens, d), st) ∧
    many1 (satisfy test) c st = some (.ok (tokens, d), st)
  of_no_token : tokens = [] → ∃ e : ParseError C, e.remaining = c ∧ e.position = position c ∧
    e.expected = [] ∧ ∀ st, takeWhile1 test c st = some (.error e, st) ∧
      many1 (satisfy test) c st = some (.error e, st)

/-- A scan for at least one token notices by the positions whether there is one. -/
theorem takeWhile1_eq (test : τ → Bool) (c : C) : takeWhile1 test c =
    if (after c).takeWhile test = [] then Run.stop (.error (unfit c))
    else Run.stop (.ok (sliceOf C ((after c).takeWhile test), scanAll test c)) := by
  have hReads := reads_scanAll test c
  funext st
  unfold takeWhile1
  by_cases hNone : (after c).takeWhile test = []
  · have hStay : position (scanAll test c) = position c := by
      rw [hReads.position_eq, hNone, widthOf_nil, Nat.add_zero]
    rw [if_pos hNone]
    exact if_pos hStay
  · have hMove := Nat.ne_of_gt (hReads.position_lt_iff.mpr hNone)
    rw [if_neg hNone, ← LawfulInput.sliceTo_eq hReads]
    exact if_neg hMove

omit [InputView C τ σ] [LawfulInput C] in
theorem unfit_remaining (c : C) : (unfit c).remaining = c ∧
    (unfit c).position = position c ∧ (unfit c).expected = [] := by
  unfold unfit
  split <;> exact ⟨rfl, rfl, rfl⟩

/-- At every cursor there is one longest run of tokens that pass a test, and the scans and
the repetitions agree on it. -/
theorem scans_alike (test : τ → Bool) (c : C) : ∃ tokens d, LongestRun test c tokens d ∧
    (∀ other e, LongestRun test c other e → other = tokens ∧ e = d) ∧
    (∀ other e, Reads c other e → (∀ token ∈ other, test token) → other <+: tokens) ∧
    ScansAlike test c tokens d := by
  have hReads := reads_scanAll test c
  have hRun := LongestRun.of_reads hReads
  have hOne := takesOne_satisfy (C := C) test
  refine ⟨_, _, hRun, fun _ _ => hRun.unique, fun _ _ => hRun.isPrefix, ?_, fun st => rfl, ?_, ?_,
    ?_⟩
  · intro st
    rw [← LawfulInput.sliceTo_eq hReads]
    rfl
  · intro st
    obtain ⟨d, hRead, hMany⟩ := hOne.many c
    rw [hMany, hRead.eq hReads, map_id]
    rfl
  · intro hSome st
    rcases hOne.many1 c with ⟨hNone, -⟩ | ⟨-, d, hRead, hMany⟩
    · exact absurd hNone hSome
    · rw [takeWhile1_eq, if_neg hSome, hMany, hRead.eq hReads, map_id]
      exact ⟨rfl, rfl⟩
  · intro hNone
    rcases hOne.many1 c with ⟨-, hMany⟩ | ⟨hSome, -⟩
    · obtain ⟨hRemaining, hPosition, hExpected⟩ := unfit_remaining c
      refine ⟨unfit c, hRemaining, hPosition, hExpected, fun st => ?_⟩
      rw [takeWhile1_eq, if_pos hNone, hMany]
      exact ⟨rfl, rfl⟩
    · exact absurd hNone hSome

/-- Characters of several bytes before the one that stops the run, and no token at all at the
end of an array of bytes. -/
theorem scans_alike_of_wide :
    (∃ d : TextCursor, ScansAlike (· != '!') (.ofSource ⟨0, "éà!1"⟩) ['é', 'à'] d ∧
      position d = 4) ∧
    ∃ d : SliceCursor UInt8, ScansAlike (· != 33) (.ofSource ⟨1, #[]⟩) [] d ∧
      position d = 0 := by
  obtain ⟨tokens, d, hRun, -, -, hAlike⟩ := scans_alike (· != '!') (TextCursor.ofSource ⟨0, "éà!1"⟩)
  obtain ⟨none, e, hEmpty, -, -, hEnd⟩ :=
    scans_alike (· != 33) (SliceCursor.ofSource ⟨1, (#[] : Array UInt8)⟩)
  obtain rfl : tokens = ['é', 'à'] := hRun.eq_takeWhile.trans (by decide)
  obtain rfl : none = [] := hEmpty.eq_takeWhile.trans (by decide)
  exact ⟨⟨d, hAlike, hRun.reads.position_eq⟩, e, hEnd, hEmpty.reads.position_eq⟩

end Parser

end Packrat

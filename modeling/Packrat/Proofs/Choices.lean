import Packrat.Grammar.Character
import Packrat.Input.Slice.Lemmas
import Packrat.Input.Text.Lemmas
import Packrat.Proofs.Results
import Packrat.Proofs.Unrecorded

/-!
# Ordered choice

The alternatives of a choice are run one after the other, each one from the cursor where the
choice starts, up to the first one that succeeds; its result is that of the choice. If none
succeeds, the failures are merged, and what is expected is what any of them expected, in the
order of the alternatives. A choice of one alternative is that alternative, so that only with
two of them or more the failure is reported where the choice started.

* `Parser.choice`: the alternatives of a list, bracketed to the left;
* `ParseError.mergeAll`: the merged failure;
* `Parser.FailInTurn`: alternatives that fail one after the other, with the entries between;
* `Parser.ChoosesInOrder`, `Parser.choosesInOrder`: what a choice does;
* `Grammar.parser_choice`: the choice between some grammars is one of these;
* `Alternatives`, `Alternatives.sameButRecord`: other brackets make no difference but for the
  record, by induction on the brackets;
* `Parser.leftFactored`, `Session.Reachable.leftFactored`: a common first part of two
  alternatives, where the state makes no difference to the parts or only true results are stored;
* `Parser.EndsAtOnce`: parsers that have nothing to do with the state;
* `Parser.OrderedChoice`, `Parser.orderedChoice`: all that holds of ordered choices.
-/

namespace Packrat

open Input List

variable {C τ σ α β : Type} [Input C τ σ]

/-! ## Merged failures -/

namespace ParseError

/-- Failures are merged at one cursor in any order of brackets. -/
theorem merge_assoc (e f g : ParseError C) (c : C) :
    (e.merge f c).merge g c = e.merge (f.merge g c) c := by
  unfold merge
  simp only [append_assoc]

/-- The failure of an alternative, merged with those of the alternatives before it. -/
def mergeAll (c : C) : List (ParseError C) → ParseError C → ParseError C
  | [], e => e
  | e₁ :: es, e => ⟨c, Input.position c, (e₁ :: es).flatMap expected ++ e.expected, e.reason⟩

variable {c : C} {es : List (ParseError C)} {e f : ParseError C}

theorem merge_mergeAll : (mergeAll c es e).merge f c = mergeAll c (es ++ [e]) f := by
  cases es with
  | nil => simp [mergeAll, merge]
  | cons e₁ es => simp [mergeAll, merge]

theorem mergeAll_expected : (mergeAll c es e).expected = (es ++ [e]).flatMap expected := by
  cases es with
  | nil => simp [mergeAll]
  | cons e₁ es => simp [mergeAll]

theorem mergeAll_reason : (mergeAll c es e).reason = e.reason := by
  cases es <;> rfl

theorem mergeAll_remaining (h : es ≠ []) :
    (mergeAll c es e).remaining = c ∧ (mergeAll c es e).position = Input.position c := by
  cases es with
  | nil => exact absurd rfl h
  | cons e₁ es => exact ⟨rfl, rfl⟩

end ParseError

namespace Parser

open ParseError

/-! ## Choices -/

/-- The alternatives of a list, the first ones in the innermost brackets. -/
def choice (first : Parser C α) (more : List (Parser C α)) : Parser C α :=
  more.foldl orElse first

/-- The entry after a failure, which is not the last one. The first of the alternatives has
failed where it says, and any other one where the choice starts. -/
def backtrack (c : C) : List (ParseError C) → ParseError C → Record
  | [], e => .backtracked (position c) e.position
  | _ :: _, _ => .backtracked (position c) (position c)

/-- Alternatives that are run at a cursor one after the other and all of which fail, with their
failures and the state after them. There is one more entry after each of them. -/
inductive FailInTurn (c : C) (st : State C) :
    List (Parser C α) → List (ParseError C) → State C → Prop
  | nil : FailInTurn c st [] [] st
  | snoc {ps es s p e t} (h : FailInTurn c st ps es s) (hFails : p c s = some (.error e, t)) :
    FailInTurn c st (ps ++ [p]) (es ++ [e]) (t.note (backtrack c es e))

/-- The entries after some failures. -/
def backtracks (c : C) : List (ParseError C) → List Record
  | [] => []
  | e :: es =>
    .backtracked (position c) e.position :: es.map fun _ => .backtracked (position c) (position c)

/-- A parser that adds no entries to the record. -/
def AddsNothing (p : Parser C α) : Prop :=
  ∀ c st r s, p c st = some (r, s) → s.log = st.log

/-- What the choice between some alternatives does at a cursor. -/
structure ChoosesInOrder (first : Parser C α) (more : List (Parser C α)) (c : C) (st : State C) :
    Prop where
  /-- The first alternative that succeeds is the last one that is run. -/
  success : ∀ ps p qs es s v d t, first :: more = ps ++ p :: qs → FailInTurn c st ps es s →
    p c s = some (.ok (v, d), t) → choice first more c st = some (.ok (v, d), t)
  /-- If all of them fail, so does the choice. -/
  failure : ∀ ps p es s e t, first :: more = ps ++ [p] → FailInTurn c st ps es s →
    p c s = some (.error e, t) → ∃ f, choice first more c st = some (.error f, t) ∧
      f.expected = (es ++ [e]).flatMap expected ∧ f.message = e.message ∧
      (more ≠ [] → f.remaining = c ∧ f.position = position c) ∧ (more = [] → f = e)
  /-- An alternative that never returns is the last one, too. -/
  silence : ∀ ps p qs es s, first :: more = ps ++ p :: qs → FailInTurn c st ps es s →
    p c s = none → choice first more c st = none
  /-- One of these is the case. -/
  exhaustive : ∃ ps p qs es s, first :: more = ps ++ p :: qs ∧ FailInTurn c st ps es s ∧
    (p c s = none ∨ (∃ v d t, p c s = some (.ok (v, d), t)) ∨
      qs = [] ∧ ∃ e t, p c s = some (.error e, t))
  /-- Before a success there is one entry for each failure. They are all that is recorded if
  the alternatives record nothing. -/
  recorded : ∀ ps p qs es s v d t, first :: more = ps ++ p :: qs → FailInTurn c st ps es s →
    p c s = some (.ok (v, d), t) → (∀ q ∈ first :: more, AddsNothing q) →
    t.log = (backtracks c es).reverse ++ st.log ∧ (backtracks c es).length = ps.length

variable {first p : Parser C α} {more ps qs : List (Parser C α)} {c : C} {st s : State C}
  {es : List (ParseError C)}

theorem backtracks_snoc (c : C) (es : List (ParseError C)) (e : ParseError C) :
    backtracks c (es ++ [e]) = backtracks c es ++ [backtrack c es e] := by
  cases es with
  | nil => rfl
  | cons e₁ es => simp [backtracks, backtrack]

theorem FailInTurn.length_eq (h : FailInTurn c st ps es s) : es.length = ps.length := by
  induction h with
  | nil => rfl
  | snoc _ _ ih =>
    rw [length_append, length_append, ih]
    rfl

/-- One entry for each of the alternatives that have failed. -/
theorem FailInTurn.recorded (h : FailInTurn c st ps es s) (hNothing : ∀ p ∈ ps, AddsNothing p) :
    s.log = (backtracks c es).reverse ++ st.log ∧ (backtracks c es).length = ps.length := by
  induction h with
  | nil => exact ⟨rfl, rfl⟩
  | @snoc ps es s p e t h hFails ih =>
    rw [forall_mem_append, forall_mem_singleton] at hNothing
    obtain ⟨hBefore, hLast⟩ := hNothing
    obtain ⟨hLog, hLength⟩ := ih hBefore
    rw [backtracks_snoc, reverse_append, length_append, length_append, hLength]
    refine ⟨?_, rfl⟩
    rw [append_assoc, ← hLog, ← hLast c s _ t hFails]
    rfl

theorem choice_append (first : Parser C α) (more qs : List (Parser C α)) :
    choice first (more ++ qs) = qs.foldl orElse (choice first more) :=
  foldl_append

/-- Where some alternatives are split there is an alternative, and those before and behind it. -/
theorem exists_split (h : first :: more = ps ++ p :: qs) :
    ∃ before, first :: before = ps ++ [p] ∧ more = before ++ qs := by
  cases ps with
  | nil =>
    obtain ⟨rfl, rfl⟩ := cons.inj h
    exact ⟨[], rfl, rfl⟩
  | cons q ps =>
    obtain ⟨rfl, rfl⟩ := cons.inj h
    exact ⟨ps ++ [p], rfl, append_cons ps p qs⟩

theorem backtrack_eq (c : C) (es : List (ParseError C)) (e : ParseError C) :
    backtrack c es e = .backtracked (position c) (mergeAll c es e).position := by
  cases es <;> rfl

/-- The last alternative decides where all those before it fail, by induction on them. -/
theorem FailInTurn.choice_eq (h : FailInTurn c st ps es s) (hSplit : first :: more = ps ++ [p]) :
    choice first more c st =
      Run.followedBy (p c) (fun r => Run.stop (Result.mapError (mergeAll c es) r)) s := by
  induction h generalizing p more with
  | nil =>
    obtain ⟨rfl, rfl⟩ := cons.inj hSplit
    have hSame : (fun r : Result C α => Run.stop (Result.mapError (mergeAll c []) r)) =
        Run.stop := by
      funext r
      rcases r with e | ⟨v, d⟩ <;> rfl
    rw [hSame, Run.followedBy_stop]
    rfl
  | @snoc ps es s q e t h hFails ih =>
    rw [append_assoc, singleton_append] at hSplit
    obtain ⟨before, hBefore, rfl⟩ := exists_split hSplit
    have hChoice : choice first before c st = some (.error (mergeAll c es e), t) := by
      rw [ih hBefore]
      exact Run.followedBy_eq_some_iff.mpr ⟨_, _, hFails, rfl⟩
    rw [choice_append, foldl_cons, foldl_nil, orElse_eq, backtrack_eq]
    simp only [Run.followedBy, hChoice, Option.bind_some, Result.cases_error, Run.noting,
      merge_mergeAll]

theorem orElse_eq_first {q : Parser C α} (h : ∀ e t, p c st ≠ some (.error e, t)) :
    orElse p q c st = p c st := by
  unfold orElse
  rcases hRun : p c st with _ | ⟨e | ⟨v, d⟩, t⟩
  · rfl
  · exact absurd hRun (h e t)
  · rfl

/-- The alternatives behind the first one that does not fail are not run, by induction on
them. -/
theorem foldl_orElse_eq_first (h : ∀ e t, p c st ≠ some (.error e, t)) :
    qs.foldl orElse p c st = p c st := by
  induction qs generalizing p with
  | nil => rfl
  | cons q qs ih =>
    have hFirst : orElse p q c st = p c st := orElse_eq_first h
    rw [foldl_cons, ih (hFirst ▸ h), hFirst]

/-- The first alternative that does not fail gives the result of the choice. -/
theorem FailInTurn.choice_eq_of_not_error (h : FailInTurn c st ps es s)
    (hSplit : first :: more = ps ++ p :: qs) (hEnds : ∀ e t, p c s ≠ some (.error e, t)) :
    choice first more c st = p c s := by
  obtain ⟨before, hBefore, rfl⟩ := exists_split hSplit
  have hChoice : choice first before c st = p c s := by
    rw [h.choice_eq hBefore]
    unfold Run.followedBy
    rcases hRun : p c s with _ | ⟨e | ⟨v, d⟩, t⟩
    · rfl
    · exact absurd hRun (hEnds e t)
    · rfl
  rw [choice_append, foldl_orElse_eq_first (hChoice ▸ hEnds), hChoice]

/-- Some alternative ends the choice, by induction on those that are still to be run. -/
theorem FailInTurn.exists_end {rest : List (Parser C α)} (h : FailInTurn c st ps es s)
    (hRest : rest ≠ []) : ∃ ps' p qs es' s', ps ++ rest = ps' ++ p :: qs ∧
      FailInTurn c st ps' es' s' ∧ (p c s' = none ∨ (∃ v d t, p c s' = some (.ok (v, d), t)) ∨
        qs = [] ∧ ∃ e t, p c s' = some (.error e, t)) := by
  induction rest generalizing ps es s with
  | nil => exact absurd rfl hRest
  | cons p rest ih =>
    rcases hRun : p c s with _ | ⟨e | ⟨v, d⟩, t⟩
    · exact ⟨ps, p, rest, es, s, rfl, h, .inl hRun⟩
    · cases rest with
      | nil => exact ⟨ps, p, [], es, s, rfl, h, .inr (.inr ⟨rfl, e, t, hRun⟩)⟩
      | cons q rest =>
        rw [append_cons]
        exact ih (h.snoc hRun) (cons_ne_nil q rest)
    · exact ⟨ps, p, rest, es, s, rfl, h, .inr (.inl ⟨v, d, t, hRun⟩)⟩

/-- What a choice does at a cursor, for all alternatives. -/
theorem choosesInOrder (first : Parser C α) (more : List (Parser C α)) (c : C) (st : State C) :
    ChoosesInOrder first more c st where
  success := by
    intro ps p qs es s v d t hSplit hFail hRun
    have hEnds : ∀ e t, p c s ≠ some (.error e, t) := by simp [hRun]
    rw [hFail.choice_eq_of_not_error hSplit hEnds, hRun]
  failure := by
    intro ps p es s e t hSplit hFail hRun
    have hLength : es.length = more.length := by
      have hSame := congrArg length hSplit
      rw [length_append, length_cons, length_cons, ← hFail.length_eq] at hSame
      exact (Nat.succ.inj hSame).symm
    refine ⟨mergeAll c es e, ?_, mergeAll_expected, congrArg Reason.message mergeAll_reason,
      ?_, ?_⟩
    · rw [hFail.choice_eq hSplit]
      exact Run.followedBy_eq_some_iff.mpr ⟨_, _, hRun, rfl⟩
    · intro hMore
      refine mergeAll_remaining fun hNone => hMore ?_
      exact length_eq_zero_iff.mp (hLength.symm.trans (congrArg length hNone))
    · rintro rfl
      rw [length_eq_zero_iff.mp hLength]
      rfl
  silence := by
    intro ps p qs es s hSplit hFail hRun
    have hEnds : ∀ e t, p c s ≠ some (.error e, t) := by simp [hRun]
    rw [hFail.choice_eq_of_not_error hSplit hEnds, hRun]
  exhaustive := FailInTurn.nil.exists_end (cons_ne_nil first more)
  recorded := by
    intro ps p qs es s v d t hSplit hFail hRun hNothing
    rw [hSplit, forall_mem_append, forall_mem_cons] at hNothing
    obtain ⟨hBefore, hLast, -⟩ := hNothing
    rw [hLast c s _ t hRun]
    exact hFail.recorded hBefore

end Parser

/-- The parser of a choice between grammars is the choice between parsers of theirs, by induction
on the grammars from their end. -/
theorem Grammar.parser_choice [Token τ] [ToValue τ] [ToValue σ]
    (call : Reference → Parser C Value) (g : Grammar) (more : List Grammar) (a : Address) :
    ∃ p ps, (choice g more).parser call a = Parser.choice p ps ∧
      Forall₂ (fun h q => ∃ b, q = h.parser call b) (g :: more) (p :: ps) := by
  induction more using reverseRecOn generalizing a with
  | nil => exact ⟨_, [], rfl, .cons ⟨a, rfl⟩ .nil⟩
  | append_singleton more h ih =>
    obtain ⟨p, ps, hParser, hParts⟩ := ih (a.turn .left)
    have hLast : (choice g (more ++ [h])).parser call a =
        .orElse ((choice g more).parser call (a.turn .left)) (h.parser call (a.turn .right)) := by
      unfold choice
      rw [foldl_append]
      rfl
    refine ⟨p, ps ++ [h.parser call (a.turn .right)], ?_, ?_⟩
    · rw [hLast, hParser, Parser.choice_append]
      rfl
    · exact rel_append hParts (.cons ⟨_, rfl⟩ .nil)

/-! ## Brackets -/

/-- Alternatives with some brackets. -/
inductive Alternatives (C α : Type) where
  | one (p : Parser C α)
  | either (left right : Alternatives C α)

namespace Alternatives

/-- The choice between alternatives in these brackets. -/
def parser : Alternatives C α → Parser C α
  | one p => p
  | either left right => .orElse left.parser right.parser

/-- The alternatives without brackets. -/
def leaves : Alternatives C α → List (Parser C α)
  | one p => [p]
  | either left right => left.leaves ++ right.leaves

end Alternatives

namespace Parser

variable {p q r first : Parser C α} {qs more : List (Parser C α)}

theorem noting_followedBy (entry : Record) (x : Run C α) (next : Result C α → Run C β) :
    (Run.noting entry x).followedBy next = Run.noting entry (x.followedBy next) := rfl

/-- Brackets to the left and brackets to the right. The entries between the alternatives are
not the same, so the alternatives must not look at them. -/
theorem orElse_assoc (hp : HeedsNoRecord p) (hq : HeedsNoRecord q) (hr : HeedsNoRecord r) :
    SameButRecord (orElse (orElse p q) r) (orElse p (orElse q r)) := by
  intro c
  rw [orElse_eq, orElse_eq, orElse_eq p, Run.followedBy_assoc]
  refine (hp c).followedBy fun r₁ => ?_
  rcases r₁ with e | ⟨v, d⟩
  · simp only [Result.cases_error]
    rw [orElse_eq q r, noting_followedBy, Run.followedBy_assoc, Run.followedBy_assoc]
    refine .noting ((hq c).followedBy fun r₂ => ?_) _ _
    rcases r₂ with f | ⟨v, d⟩
    · simp only [Run.stop_followedBy, Result.mapError, Result.cases_error]
      rw [noting_followedBy, Run.followedBy_assoc]
      refine .noting ((hr c).followedBy fun r₃ => ?_) _ _
      rcases r₃ with g | ⟨v, d⟩
      · simp only [Run.stop_followedBy, Result.cases_error, ParseError.merge_assoc]
        exact .stop _
      · exact .stop _
    · exact .stop _
  · exact .stop _

theorem HeedsNoRecord.choice (hFirst : HeedsNoRecord first) (hMore : ∀ p ∈ more, HeedsNoRecord p) :
    HeedsNoRecord (choice first more) := by
  induction more generalizing first with
  | nil => exact hFirst
  | cons p more ih =>
    obtain ⟨hp, hMore⟩ := forall_mem_cons.mp hMore
    exact ih (hFirst.orElse hp) hMore

/-- An alternative before a choice, by induction on the choice from its end. -/
theorem sameButRecord_choice (hp : HeedsNoRecord p) (hFirst : HeedsNoRecord first)
    (hMore : ∀ q ∈ more, HeedsNoRecord q) :
    SameButRecord (orElse p (choice first more)) (choice p (first :: more)) := by
  induction more using reverseRecOn with
  | nil => exact hp.orElse hFirst
  | append_singleton more q ih =>
    obtain ⟨hMore, hq⟩ := forall_mem_append.mp hMore
    have hLast := hq q mem_cons_self
    rw [choice_append, ← cons_append, choice_append]
    exact (orElse_assoc hp (hFirst.choice hMore) hLast).symm.trans ((ih hMore).orElse hLast)

end Parser

/-- Whatever the brackets are, the result is that of the alternatives bracketed to the left, by
induction on the brackets. -/
theorem Alternatives.sameButRecord (t : Alternatives C α)
    (h : ∀ p ∈ t.leaves, p.HeedsNoRecord) : ∃ first more, t.leaves = first :: more ∧
      t.parser.SameButRecord (Parser.choice first more) := by
  induction t with
  | one p => exact ⟨p, [], rfl, h p mem_cons_self⟩
  | either left right ihl ihr =>
    obtain ⟨hLeft, hRight⟩ := forall_mem_append.mp h
    obtain ⟨first, more, hLeaves, hSame⟩ := ihl hLeft
    obtain ⟨first', more', hLeaves', hSame'⟩ := ihr hRight
    refine ⟨first, more ++ first' :: more', by rw [leaves, hLeaves, hLeaves', cons_append], ?_⟩
    rw [hLeaves, forall_mem_cons] at hLeft
    rw [hLeaves', forall_mem_cons] at hRight
    rw [Parser.choice_append]
    exact (hSame.orElse hSame').trans
      (Parser.sameButRecord_choice (hLeft.1.choice hLeft.2) hRight.1 hRight.2)

/-! ## A common first part -/

namespace Parser

variable {p : Parser C β} {q r : Parser C α}

/-- The result of a parser in the state in which nothing has happened. -/
def result (p : Parser C α) (c : C) : Option (Result C α) :=
  (p c {}).map Prod.fst

/-- A parser that is a function of the cursor: its result is the same in all states. -/
def OfCursor (p : Parser C α) : Prop :=
  ∀ c st, (p c st).map Prod.fst = p.result c

omit [Input C τ σ] in
theorem map_fst_both (hq : OfCursor q) (c : C) (st : State C) :
    (both p q c st).map Prod.fst = ((p c st).map Prod.fst).bind (Result.cases
      (fun e => some (.error e)) fun v d => (q.result d).map (Result.map (Prod.mk v))) := by
  unfold both
  rcases p c st with _ | ⟨e | ⟨v, d⟩, s⟩
  · rfl
  · rfl
  · have hSecond := hq d s
    simp only [Option.map_some, Option.bind_some, Result.cases_ok, ← hSecond]
    rcases q d s with _ | ⟨e | ⟨w, d'⟩, s'⟩ <;> rfl

theorem map_fst_orElse {p : Parser C α} (hq : OfCursor q) (c : C) (st : State C) :
    (orElse p q c st).map Prod.fst = ((p c st).map Prod.fst).bind (Result.cases
      (fun e => (q.result c).map (Result.mapError (e.merge · c)))
      fun v d => some (.ok (v, d))) := by
  unfold orElse
  rcases p c st with _ | ⟨e | ⟨v, d⟩, s⟩
  · rfl
  · have hSecond := hq c (s.note (.backtracked (position c) e.position))
    simp only [Option.map_some, Option.bind_some, Result.cases_error, ← hSecond]
    rcases q c _ with _ | ⟨f | ⟨w, d'⟩, s'⟩ <;> rfl
  · rfl

omit [Input C τ σ] in
theorem OfCursor.both (hp : OfCursor p) (hq : OfCursor q) : OfCursor (both p q) := by
  intro c st
  rw [result, map_fst_both hq, map_fst_both hq, hp c st, hp c {}]

theorem OfCursor.orElse {p : Parser C α} (hp : OfCursor p) (hq : OfCursor q) :
    OfCursor (orElse p q) := by
  intro c st
  rw [result, map_fst_orElse hq, map_fst_orElse hq, hp c st, hp c {}]

/-- A common first part of two alternatives can be read before the choice: whatever the states
are, both parsers succeed with one value and one cursor, or both fail, or neither returns. -/
theorem leftFactored (hp : OfCursor p) (hq : OfCursor q) (hr : OfCursor r) (c : C)
    (st st' : State C) : (orElse (both p q) (both p r) c st).map (·.1.toOption) =
      (both p (orElse q r) c st').map (·.1.toOption) := by
  have hResult : ∀ x : Option (Result C (β × α) × State C),
      x.map (·.1.toOption) = (x.map Prod.fst).map Except.toOption := by
    intro x
    rw [Option.map_map]
    rfl
  have hLeft := map_fst_both (p := p) hq c st
  have hAgain : (both p r).result c = _ := map_fst_both hr c {}
  rw [hp c st] at hLeft
  rw [hp c {}] at hAgain
  rw [hResult, hResult, map_fst_orElse (hp.both hr), map_fst_both (hq.orElse hr), hLeft, hAgain,
    hp c st']
  rcases p.result c with _ | e | ⟨v, d⟩
  · rfl
  · rfl
  · -- the first part succeeds whenever it is run, so the second parts decide
    have hSecond : (Parser.orElse q r).result d = _ := map_fst_orElse hr d {}
    rw [hq d {}] at hSecond
    simp only [Option.bind_some, Result.cases_ok, hSecond]
    rcases q.result d with _ | f | ⟨w, d'⟩
    · rfl
    · rcases r.result d with _ | g | ⟨w, d'⟩ <;> rfl
    · rfl

end Parser

namespace Session.Reachable

variable [InputView C τ σ] [Token τ] [ToValue τ] [ToValue σ] [LawfulInput C] [LawfulToken τ]
  {memory : Nat → List τ} {session session' : Session C} {c : C}

/-- Sessions of one program give the same results, whatever they have stored. -/
theorem result?_congr (h : session.Reachable memory) (h' : session'.Reachable memory)
    (hProgram : session'.program = session.program) (hMemory : InMemory memory c) (g : Grammar) :
    session'.result? g c = session.result? g c := by
  apply Option.ext
  intro r
  rw [h'.result?_iff hMemory, h.result?_iff hMemory, hProgram]

/-- A common first part of two alternatives can be read before the choice, whatever the parts
are. It may be found among the stored results when it is tried again. -/
theorem leftFactored (h : session.Reachable memory) (hMemory : InMemory memory c)
    (g k l : Grammar) :
    (session.result? (.orElse (.both g k) (.both g l)) c).map Except.toOption =
      (session.result? (.both g (.orElse k l)) c).map Except.toOption := by
  rw [h.result?_orElse hMemory, h.result?_both hMemory, h.result?_both hMemory,
    h.result?_both hMemory]
  rcases hFirst : session.result? g c with _ | e | ⟨v, d⟩
  · rfl
  · rfl
  · obtain ⟨tokens, hReads⟩ := h.reads hMemory hFirst
    simp only [Option.bind_some, Result.cases_ok]
    rw [h.result?_orElse (hReads.inMemory hMemory)]
    rcases session.result? k d with _ | f | ⟨w, d'⟩
    · rfl
    · rcases session.result? l d with _ | f' | ⟨w, d'⟩ <;> rfl
    · rfl

end Session.Reachable

namespace Parser

/-! ## Parsers that end at once -/

section

omit [Input C τ σ]

variable {p : Parser C β} {q : Parser C α}

/-- A parser that neither heeds the state nor changes it. -/
def EndsAtOnce (p : Parser C α) : Prop :=
  ∀ c, ∃ r, p c = Run.stop r

namespace EndsAtOnce

theorem heedsNoRecord (h : EndsAtOnce p) : HeedsNoRecord p := by
  intro c
  obtain ⟨r, hStop⟩ := h c
  rw [hStop]
  exact .stop r

theorem ofCursor (h : EndsAtOnce p) : OfCursor p := by
  intro c st
  obtain ⟨r, hStop⟩ := h c
  rw [result, hStop]
  rfl

theorem addsNothing (h : EndsAtOnce p) : AddsNothing p := by
  intro c st r s hRun
  obtain ⟨r', hStop⟩ := h c
  cases (congrFun hStop st).symm.trans hRun
  rfl

theorem seqRight (hp : EndsAtOnce p) (hq : EndsAtOnce q) : EndsAtOnce (seqRight p q) := by
  intro c
  unfold Parser.seqRight
  obtain ⟨_ | ⟨v, d⟩, hFirst⟩ := hp c
  · exact ⟨_, by rw [map_both_eq, bind_eq, hFirst]; rfl⟩
  · obtain ⟨r, hSecond⟩ := hq d
    refine ⟨Result.map (fun w => w) r, ?_⟩
    rw [map_both_eq, bind_eq, hFirst, Run.stop_followedBy]
    show map _ q d = _
    rw [map_eq, hSecond]
    rfl

end EndsAtOnce

end

theorem endsAtOnce_literal [Token τ] (s : String) : EndsAtOnce (literal s : Parser C String) := by
  intro c
  unfold literal
  rcases matchAll (· == ·) s.toList c with ⟨x, found⟩ | d
  · exact ⟨_, rfl⟩
  · exact ⟨_, rfl⟩

/-! ## Ordered choice -/

/-- What holds of ordered choices between parsers of one kind. -/
structure OrderedChoice (C α β : Type) {τ σ : Type} [Input C τ σ] : Prop where
  inOrder : ∀ (first : Parser C α) more c st, ChoosesInOrder first more c st
  /-- Choices between grammars are among them. -/
  ofGrammars : ∀ [Token τ] [ToValue τ] [ToValue σ] (call : Reference → Parser C Value) g more a,
    ∃ p ps, (Grammar.choice g more).parser call a = choice p ps ∧
      Forall₂ (fun h q => ∃ b, q = h.parser call b) (g :: more) (p :: ps)
  /-- Other brackets do not change the result. -/
  brackets : ∀ (t : Alternatives C α) first more, t.leaves = first :: more →
    (∀ p ∈ t.leaves, HeedsNoRecord p) → SameButRecord t.parser (choice first more)
  /-- Whatever is part of a program can be an alternative there. -/
  parts : ∀ [InputView C τ σ] [Token τ] [ToValue τ] [ToValue σ] [LawfulInput C] (P : Program) n
    (g : Grammar) a, HeedsNoRecord (g.parser (P.level n) a : Parser C Value)
  merge_assoc : ∀ (e f g : ParseError C) c, (e.merge f c).merge g c = e.merge (f.merge g c) c
  /-- Nor does it if a common first part is read before the choice. -/
  factored : ∀ (p : Parser C β) (q r : Parser C α), OfCursor p → OfCursor q → OfCursor r →
    ∀ c st st', (orElse (both p q) (both p r) c st).map (·.1.toOption) =
      (both p (orElse q r) c st').map (·.1.toOption)
  /-- The same holds of all grammars in sessions of one program, whatever has been run there:
  stored results are those of the cursor. -/
  factoredStored : ∀ [InputView C τ σ] [Token τ] [ToValue τ] [ToValue σ] [LawfulInput C]
    [LawfulToken τ] (memory : Nat → List τ) (session session' : Session C) c,
    session.Reachable memory → session'.Reachable memory →
    session'.program = session.program → InMemory memory c → ∀ g k l : Grammar,
    (session.result? (.orElse (.both g k) (.both g l)) c).map Except.toOption =
      (session'.result? (.both g (.orElse k l)) c).map Except.toOption

theorem orderedChoice (C α β : Type) {τ σ : Type} [Input C τ σ] : OrderedChoice C α β where
  inOrder := choosesInOrder
  ofGrammars := Grammar.parser_choice
  brackets := by
    intro t first more hLeaves hRecord
    obtain ⟨first', more', hLeaves', hSame⟩ := t.sameButRecord hRecord
    obtain ⟨rfl, rfl⟩ := cons.inj (hLeaves.symm.trans hLeaves')
    exact hSame
  parts P n g a := g.heedsNoRecord (P.heedsNoRecord_level n) a
  merge_assoc := ParseError.merge_assoc
  factored _ _ _ := leftFactored
  factoredStored := by
    intro _ _ _ _ _ _ memory session session' c h h' hProgram hMemory g k l
    rw [h.result?_congr h' hProgram hMemory]
    exact h.leftFactored hMemory g k l

/-- Two alternatives that fail, the first one ahead, and one that succeeds. A first part that is
stored is taken off both alternatives. -/
theorem orderedChoice_of_prefixes :
    (∃ d t, choice (seqRight (literal "a") (literal "c")) [literal "abc", literal "ab"]
        (TextCursor.ofSource ⟨0, "abd"⟩) {} = some (.ok ("ab", d), t) ∧ position d = 2 ∧
      t.log = [.backtracked 0 0, .backtracked 0 1]) ∧
    SameButRecord (C := TextCursor) (orElse (literal "a") (orElse (literal "b") (literal "c")))
      (choice (literal "a") [literal "b", literal "c"]) ∧
    (∀ c st st', (orElse (both (literal "a") (literal "b")) (both (literal "a") (literal "c"))
        (c : TextCursor) st).map (·.1.toOption) =
      (both (literal "a") (orElse (literal "b") (literal "c")) c st').map (·.1.toOption)) ∧
    ∃ session : Session TextCursor, session.Reachable (fun _ => ['a', 'c']) ∧
      (session.table "a").size = 1 ∧
      (session.result? (.orElse (.both (.call (.shared "a")) (.literal "b"))
        (.both (.call (.shared "a")) (.literal "c"))) (.ofSource ⟨0, "ac"⟩)).map Except.toOption =
      (Session.result? { program := session.program } (.both (.call (.shared "a"))
        (.orElse (.literal "b") (.literal "c"))) (.ofSource ⟨0, "ac"⟩)).map Except.toOption := by
  have hChoice := orderedChoice TextCursor String String
  have hEnds : ∀ s, EndsAtOnce (literal s : Parser TextCursor String) := endsAtOnce_literal
  refine ⟨?_, ?_, ?_, ?_⟩
  · have hOrder := hChoice.inOrder (seqRight (literal "a") (literal "c"))
      [literal "abc", literal "ab"] (.ofSource ⟨0, "abd"⟩) {}
    have hNothing : ∀ q ∈ [seqRight (literal "a") (literal "c"), literal "abc", literal "ab"],
        AddsNothing (q : Parser TextCursor String) := by
      simp only [forall_mem_cons]
      exact ⟨((hEnds _).seqRight (hEnds _)).addsNothing, (hEnds _).addsNothing,
        (hEnds _).addsNothing, forall_mem_nil _⟩
    obtain ⟨e₁, hFirst, hAhead⟩ : ∃ e, seqRight (literal "a") (literal "c")
        (TextCursor.ofSource ⟨0, "abd"⟩) {} = some (.error e, {}) ∧ e.position = 1 :=
      ⟨_, rfl, rfl⟩
    obtain ⟨e₂, hSecond⟩ : ∃ e, literal "abc" (TextCursor.ofSource ⟨0, "abd"⟩) =
        Run.stop (.error e) := ⟨_, rfl⟩
    obtain ⟨d, hThird, hPosition⟩ : ∃ d, literal "ab" (TextCursor.ofSource ⟨0, "abd"⟩) =
        Run.stop (.ok ("ab", d)) ∧ position d = 2 := ⟨_, rfl, rfl⟩
    have hFail := (FailInTurn.nil.snoc hFirst).snoc (congrFun hSecond _)
    obtain ⟨hLog, -⟩ := hOrder.recorded _ _ [] _ _ _ _ _ rfl hFail (congrFun hThird _) hNothing
    refine ⟨d, _, hOrder.success _ _ [] _ _ _ _ _ rfl hFail (congrFun hThird _), hPosition,
      hLog.trans ?_⟩
    rw [nil_append, singleton_append, backtracks, hAhead]
    rfl
  · refine hChoice.brackets (.either (.one (literal "a"))
      (.either (.one (literal "b")) (.one (literal "c")))) _ _ rfl ?_
    simp only [Alternatives.leaves, forall_mem_append, forall_mem_singleton]
    exact ⟨(hEnds _).heedsNoRecord, (hEnds _).heedsNoRecord, (hEnds _).heedsNoRecord⟩
  · exact hChoice.factored _ _ _ (hEnds _).ofCursor (hEnds _).ofCursor (hEnds _).ofCursor
  · let program : Program := { shared := [("a", .memo (.literal "a"))] }
    have hMemory : InMemory (fun _ => ['a', 'c']) (TextCursor.ofSource ⟨0, "ac"⟩) := ⟨[], rfl⟩
    obtain ⟨report, session, hParse, hProgram, hSize⟩ : ∃ report session,
        ({ program } : Session TextCursor).parse (.call (.shared "a")) (.ofSource ⟨0, "ac"⟩) =
          some (report, session) ∧ session.program = program ∧ (session.table "a").size = 1 :=
      ⟨_, _, rfl, rfl, rfl⟩
    have hSession : session.Reachable (fun _ => ['a', 'c']) :=
      .parse (.start program) hMemory hParse
    exact ⟨session, hSession, hSize, hChoice.factoredStored _ session _ _ hSession
      (.start session.program) rfl hMemory _ _ _⟩

/-- A choice of one alternative fails where that one does, which may be ahead. -/
theorem choice_of_one_ahead : ∃ e s,
    choice ((Grammar.sequence (Grammar.char 'a') [Grammar.char 'b']).parser (fun _ => .silent)
      .fresh) [] (TextCursor.ofSource ⟨0, "ax"⟩) {} = some (.error e, s) ∧
    e.remaining ≠ TextCursor.ofSource ⟨0, "ax"⟩ ∧ e.position = 1 := by
  refine ⟨_, _, rfl, fun hStay => ?_, rfl⟩
  exact absurd (congrArg position hStay) (by decide)

end Parser

end Packrat

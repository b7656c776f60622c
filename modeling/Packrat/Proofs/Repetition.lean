import Packrat.Input.Slice.Lemmas
import Packrat.Proofs.TokenRuns
import Packrat.Proofs.Transparency

/-!
# Repetition

A repeated parser goes through a chain of rounds, each of which succeeds where the one
before it has ended and moves the cursor on. If what it reads is always taken off the input,
then the chain comes to an end, and what happens in the next round, which is no longer part
of the chain, decides the outcome of the repetition: a failure ends it with the values of
the chain, and a success in place makes it fail.

With stored results, what a parser reads depends on the state, and a state may claim anything
of a cursor. So it is a property of the cursor and the state together under which a parser
reads on, and which it keeps; for the parsers of a program it is that what is stored is true
of one memory in which the cursor lies.

* `Parser.Chain`, `Parser.Longest`: the chains of rounds, and the one that all others are
  parts of;
* `Parser.ReadsOn`, `Parser.readsOn_part`: parsers that only read on, as all parts of a program do;
* `Parser.exists_longest`: it exists, by induction on what is left of the input;
* `Parser.foldFrom_of_chain`: a repetition after the rounds of a chain, by induction on the
  chain;
* `Parser.Repeats`: the outcomes of the four repetitions, by the next round;
* `Parser.Longest.repeats`, `Parser.repeats_exactly`: these are the outcomes after the longest
  chain, and there is one from every cursor.
-/

namespace Packrat

open Input List

variable {C τ σ α β : Type}

/-- One round of a repetition: its value, and the cursor and the state after it. -/
structure Link (C α : Type) where
  value : α
  cursor : C
  state : State C

/-- The failure of a repetition that made no progress at a cursor. -/
structure ParseError.NoProgress [Input C τ σ] (e : ParseError C) (c : C) : Prop where
  message_eq : e.message = "repetition made no progress"
  expected_eq : e.expected = []
  remaining_eq : e.remaining = c
  position_eq : e.position = Input.position c

namespace Parser

section

variable [Input C τ σ]

/-- The rounds of a repeated parser from a cursor and a state to others: each of them
succeeds where the one before it has ended, and moves the cursor on. -/
inductive Chain (p : Parser C α) : C → State C → List (Link C α) → C → State C → Prop
  | nil (c : C) (st : State C) : Chain p c st [] c st
  | cons {c d e : C} {st s t : State C} {v : α} {links : List (Link C α)}
    (hRound : p c st = some (.ok (v, d), s)) (hLt : position c < position d)
    (hMore : Chain p d s links e t) : Chain p c st (⟨v, d, s⟩ :: links) e t

/-- A chain of rounds that all other ones from the same start are parts of. -/
structure Longest (p : Parser C α) (c : C) (st : State C) (links : List (Link C α)) (d : C)
    (s : State C) : Prop where
  chain : Chain p c st links d s
  covers : ∀ {other e t}, Chain p c st other e t → other <+: links

/-- At the cursors and in the states with a property, which is kept, a parser succeeds only with
cursors that are reached by reading. -/
def ReadsOn [InputView C τ σ] (p : Parser C α) (ready : C → State C → Prop) : Prop :=
  ∀ ⦃c st v d s⦄, ready c st → p c st = some (.ok (v, d), s) →
    (∃ tokens, Reads c tokens d) ∧ ready d s

/-- The four repetitions of a parser fail, for want of progress at a later cursor. -/
def AllStall (p : Parser C α) (c : C) (st : State C) (d : C) : Prop :=
  ∃ e s, e.NoProgress d ∧ many p c st = some (.error e, s) ∧ many1 p c st = some (.error e, s) ∧
    skipMany p c st = some (.error e, s) ∧ skipMany1 p c st = some (.error e, s)

/-- What the repetitions of a parser give, where some rounds from a cursor and a state to
others have been made and the next one does not move the cursor on. -/
structure Repeats (p : Parser C α) (c : C) (st : State C) (links : List (Link C α)) (d : C)
    (s : State C) : Prop where
  /-- A failure is dropped, with whatever was read before it. -/
  many_of_failure : ∀ e t, p d s = some (.error e, t) →
    many p c st = some (.ok (links.map Link.value, d), t)
  /-- The failure of the first round is not. -/
  many1_of_failure : ∀ e t, p d s = some (.error e, t) →
    many1 p c st = if links = [] then some (.error e, t)
      else some (.ok (links.map Link.value, d), t)
  /-- A success in place is a failure of all repetitions. -/
  of_success : ∀ v e t, p d s = some (.ok (v, e), t) → AllStall p c st d
  /-- So a parser that returns and does not fail there cannot be repeated. -/
  of_no_failure : (p d s).isSome → (∀ e t, p d s ≠ some (.error e, t)) → AllStall p c st d
  /-- A round that does not return makes all repetitions not return. -/
  of_none : p d s = none → many p c st = none ∧ many1 p c st = none ∧
    skipMany p c st = none ∧ skipMany1 p c st = none
  skipMany_eq : skipMany p c st = (many p c st).map (Prod.map (Result.map fun _ => ()) id)
  skipMany1_eq : skipMany1 p c st = (many1 p c st).map (Prod.map (Result.map fun _ => ()) id)

variable {p : Parser C α} {c d e : C} {st s t : State C} {links other : List (Link C α)}

/-! ## Without the values -/

theorem map_eq_map (f : α → β) (p : Parser C α) (c : C) (st : State C) :
    map f p c st = (p c st).map (Prod.map (Result.map f) id) := by
  rw [map_eq]
  unfold Run.followedBy Run.stop
  rcases p c st with _ | ⟨r, s⟩ <;> rfl

theorem foldl_unit : foldl (fun (_ : Unit) (_ : α) => ()) () = fun _ => () := by
  funext vs
  rfl

/-- A repetition without the values is one with the values dropped. -/
theorem skipMany_eq_map (p : Parser C α) : skipMany p = map (fun _ => ()) (many p) := by
  unfold skipMany
  rw [fold_eq_map_many, foldl_unit]

theorem skipMany1_eq_map (p : Parser C α) : skipMany1 p = map (fun _ => ()) (many1 p) := by
  unfold skipMany1
  rw [fold1_eq_map_many1, foldl_unit]

/-! ## Chains -/

/-- Two chains from one start: one of them is the first part of the other, since a parser
gives one result in a state. -/
theorem Chain.isPrefix_or_cons (h : Chain p c st links d s) (k : Chain p c st other e t) :
    other <+: links ∨ ∃ v f u, p d s = some (.ok (v, f), u) ∧ position d < position f := by
  induction h generalizing other with
  | nil c st =>
    cases k with
    | nil => exact .inl (prefix_refl _)
    | cons hRound hLt hMore => exact .inr ⟨_, _, _, hRound, hLt⟩
  | cons hRound hLt hMore ih =>
    cases k with
    | nil => exact .inl nil_prefix
    | cons hRound' hLt' hMore' =>
      rw [hRound] at hRound'
      cases hRound'
      rcases ih hMore' with hPart | hNext
      · exact .inl ((prefix_cons_inj _).mpr hPart)
      · exact .inr hNext

/-- One more round at the end of a chain. -/
theorem Chain.snoc (h : Chain p c st links d s) {v : α} (hRound : p d s = some (.ok (v, e), t))
    (hLt : position d < position e) : Chain p c st (links ++ [⟨v, e, t⟩]) e t := by
  induction h with
  | nil c st => exact .cons hRound hLt (.nil e t)
  | cons hFirst hMoved hMore ih => exact .cons hFirst hMoved (ih hRound hLt)

/-- A chain is the longest one if and only if the next round does not move the cursor on. -/
theorem Chain.longest_iff (h : Chain p c st links d s) : Longest p c st links d s ↔
    ∀ v e t, p d s = some (.ok (v, e), t) → ¬position d < position e := by
  constructor
  · intro hLongest v e t hRound hLt
    have hLength := (hLongest.covers (h.snoc hRound hLt)).length_le
    rw [length_append, length_singleton] at hLength
    omega
  · intro hEnd
    refine ⟨h, fun k => ?_⟩
    rcases h.isPrefix_or_cons k with hPart | ⟨v, f, u, hRound, hLt⟩
    · exact hPart
    · exact absurd hLt (hEnd v f u hRound)

/-- The end of a chain is determined by its rounds. -/
theorem Chain.end_eq (h : Chain p c st links d s) (k : Chain p c st links e t) :
    d = e ∧ s = t := by
  induction h with
  | nil =>
    cases k
    exact ⟨rfl, rfl⟩
  | cons _ _ _ ih =>
    cases k with
    | cons _ _ hMore => exact ih hMore

theorem Longest.unique (h : Longest p c st links d s) (k : Longest p c st other e t) :
    other = links ∧ e = d ∧ t = s := by
  have hPart := h.covers k.chain
  have hWhole := k.covers h.chain
  obtain rfl := hPart.eq_of_length_le hWhole.length_le
  obtain ⟨rfl, rfl⟩ := h.chain.end_eq k.chain
  exact ⟨rfl, rfl, rfl⟩

/-! ## Repetitions after a chain -/

/-- A repetition goes through the rounds of a chain and combines their values. -/
theorem foldFrom_of_chain (h : Chain p c st links d s) (combine : β → α → β) (n : Nat) (acc : β) :
    foldFrom combine p (links.length + n) acc c st =
      foldFrom combine p n ((links.map Link.value).foldl combine acc) d s := by
  induction h generalizing acc with
  | nil c st => rw [length_nil, Nat.zero_add, map_nil, foldl_nil]
  | cons hRound hLt hMore ih =>
    rw [length_cons, Nat.add_right_comm, foldFrom, hRound]
    simp only [if_pos hLt]
    rw [ih, map_cons, foldl_cons]

/-- The end of a repetition, by the result of a round that does not move the cursor on. -/
def ended (acc : β) (d : C) : Option (Result C α × State C) → Option (Result C β × State C)
  | none => none
  | some (.error _, t) => some (.ok (acc, d), t)
  | some (.ok _, t) => some (stall d t)

theorem foldFrom_of_end (hEnd : ∀ v e t, p d s = some (.ok (v, e), t) → ¬position d < position e)
    (combine : β → α → β) (n : Nat) (acc : β) :
    foldFrom combine p (n + 1) acc d s = ended acc d (p d s) := by
  rw [foldFrom]
  rcases hRound : p d s with _ | ⟨_ | ⟨v, e⟩, t⟩
  · rfl
  · rfl
  · simp only [if_neg (hEnd v e t hRound)]
    rfl

/-- A repetition whose bound is as large as the length of the longest chain. -/
theorem fold_of_longest (h : Longest p c st links d s) (hLength : links.length ≤ left c)
    (combine : β → α → β) (start : β) :
    fold combine start p c st = ended ((links.map Link.value).foldl combine start) d (p d s) := by
  obtain ⟨n, hLeft⟩ := Nat.exists_eq_add_of_le hLength
  unfold fold
  rw [hLeft, Nat.add_assoc, foldFrom_of_chain h.chain,
    foldFrom_of_end (h.chain.longest_iff.mp h)]

theorem many_of_longest (h : Longest p c st links d s) (hLength : links.length ≤ left c) :
    many p c st = ended (links.map Link.value) d (p d s) := by
  unfold many
  rw [map_eq_map, fold_of_longest h hLength, foldl_push, append_nil]
  rcases p d s with _ | ⟨_ | _, t⟩
  · rfl
  · simp [ended, Result.map, Prod.map]
  · rfl

/-- After the first round of a longest chain, a repetition of at least one round is one of
any number of them. -/
theorem many1_of_longest_cons {link : Link C α} (h : Longest p c st (link :: links) d s)
    (hLength : links.length ≤ left link.cursor) :
    many1 p c st = ended ((link :: links).map Link.value) d (p d s) := by
  have hEnd := h.chain.longest_iff.mp h
  obtain ⟨v, e, t⟩ := link
  cases h.chain with
  | cons hRound hLt hMore =>
    have hMany := fold_of_longest (hMore.longest_iff.mpr hEnd) hLength push [v]
    have hFirst : fold1 push [] p c st = fold push [v] p e t := by
      rw [fold1, hRound]
      exact if_pos hLt
    unfold many1
    rw [map_eq_map, hFirst, hMany, foldl_push]
    rcases p d s with _ | ⟨_ | _, t⟩
    · rfl
    · simp [ended, Result.map, Prod.map]
    · rfl

/-- Without a round, a repetition of at least one round fails as the parser does. -/
theorem many1_of_longest_nil (h : Longest p c st [] d s) : many1 p c st =
    (p d s).map fun x => match x.1 with
      | .error e => (.error e, x.2)
      | .ok _ => stall d x.2 := by
  have hEnd := h.chain.longest_iff.mp h
  cases h.chain
  unfold many1
  rw [map_eq_map, fold1]
  rcases hRound : p c st with _ | ⟨_ | ⟨v, e⟩, t⟩
  · rfl
  · rfl
  · simp only [if_neg (hEnd v e t hRound)]
    rfl

end

/-! ## Chains that end -/

section

variable [Input C τ σ] [InputView C τ σ] [Token τ] [LawfulInput C] {p : Parser C α} {c d : C}
  {st s : State C} {links : List (Link C α)} {ready : C → State C → Prop}

/-- Every round of a chain reads at least one token. -/
theorem Chain.reads (h : Chain p c st links d s) (hReads : p.ReadsOn ready)
    (hReady : ready c st) : ∃ tokens, Reads c tokens d ∧ links.length ≤ tokens.length := by
  induction h with
  | nil c st => exact ⟨[], .refl c, Nat.le_refl 0⟩
  | cons hRound hLt hMore ih =>
    obtain ⟨⟨first, hFirst⟩, hNext⟩ := hReads hReady hRound
    obtain ⟨more, hRest, hLength⟩ := ih hNext
    have hSome : 0 < first.length := length_pos_iff.mpr (hFirst.position_lt_iff.mp hLt)
    refine ⟨first ++ more, hFirst.trans hRest, ?_⟩
    rw [length_append, length_cons]
    omega

theorem Chain.length_le_count (h : Chain p c st links d s) (hReads : p.ReadsOn ready)
    (hReady : ready c st) : links.length ≤ count c := by
  obtain ⟨tokens, hRead, hLength⟩ := h.reads hReads hReady
  have hCount := hRead.count_eq
  omega

theorem count_le_left (c : C) : count c ≤ left c := by
  rw [LawfulInput.count_eq, left_eq]
  exact length_le_widthOf _

/-- Rounds cannot go on forever, since each of them leaves less of the input. -/
theorem exists_longest (hReads : p.ReadsOn ready) (hReady : ready c st) :
    ∃ links d s, Longest p c st links d s := by
  generalize hLeft : left c = n
  induction n using Nat.strongRecOn generalizing c st with
  | ind n ih =>
    by_cases hMoves : ∃ v d s, p c st = some (.ok (v, d), s) ∧ position c < position d
    · obtain ⟨v, d, s, hRound, hLt⟩ := hMoves
      obtain ⟨⟨tokens, hRead⟩, hNext⟩ := hReads hReady hRound
      have hLess : left d < n := hLeft ▸ hRead.left_lt hLt
      obtain ⟨links, e, t, hLongest⟩ := ih (left d) hLess hNext rfl
      have hEnd := hLongest.chain.longest_iff.mp hLongest
      exact ⟨_, e, t, (Chain.cons hRound hLt hLongest.chain).longest_iff.mpr hEnd⟩
    · refine ⟨[], c, st, (Chain.nil c st).longest_iff.mpr ?_⟩
      intro v d s hRound hLt
      exact hMoves ⟨v, d, s, hRound, hLt⟩

/-- The repetition of at least one round after the longest chain. -/
theorem many1_of_longest (h : Longest p c st links d s) (hReads : p.ReadsOn ready)
    (hReady : ready c st) : many1 p c st = match links with
      | [] => (p d s).map fun x => match x.1 with
        | .error e => (.error e, x.2)
        | .ok _ => stall d x.2
      | _ => ended (links.map Link.value) d (p d s) := by
  cases links with
  | nil => exact many1_of_longest_nil h
  | cons link links =>
    refine many1_of_longest_cons h ?_
    cases h.chain with
    | cons hRound hLt hMore =>
      have hLength := hMore.length_le_count hReads (hReads hReady hRound).2
      exact Nat.le_trans hLength (count_le_left _)

/-- After the longest chain of rounds, the next round decides the outcome of a repetition. -/
theorem Longest.repeats (h : Longest p c st links d s) (hReads : p.ReadsOn ready)
    (hReady : ready c st) : Repeats p c st links d s := by
  have hLength := Nat.le_trans (h.chain.length_le_count hReads hReady) (count_le_left c)
  have hMany := many_of_longest h hLength
  have hMany1 := many1_of_longest h hReads hReady
  have hSkip : skipMany p c st = (many p c st).map (Prod.map (Result.map fun _ => ()) id) := by
    rw [skipMany_eq_map, map_eq_map]
  have hSkip1 : skipMany1 p c st =
      (many1 p c st).map (Prod.map (Result.map fun _ => ()) id) := by
    rw [skipMany1_eq_map, map_eq_map]
  have hStall : ∀ v e t, p d s = some (.ok (v, e), t) → AllStall p c st d := by
    intro v e t hRound
    rw [hRound] at hMany hMany1
    have hEither : many1 p c st = some (stall d t) := by
      rw [hMany1]
      cases links <;> rfl
    refine ⟨.new d .noProgress, t.note (.stalled (position d)), ⟨rfl, rfl, rfl, rfl⟩, hMany,
      hEither, ?_, ?_⟩
    · rw [hSkip, hMany]
      rfl
    · rw [hSkip1, hEither]
      rfl
  refine ⟨?_, ?_, hStall, ?_, ?_, hSkip, hSkip1⟩
  · intro e t hRound
    rw [hMany, hRound]
    rfl
  · intro e t hRound
    rw [hMany1, hRound]
    cases links <;> rfl
  · intro hSome hNever
    obtain ⟨⟨_ | ⟨v, e⟩, t⟩, hRound⟩ := Option.isSome_iff_exists.mp hSome
    · exact absurd hRound (hNever _ _)
    · exact hStall v e t hRound
  · intro hNone
    rw [hNone] at hMany hMany1
    have hEither : many1 p c st = none := by
      rw [hMany1]
      cases links <;> rfl
    rw [hSkip, hSkip1, hMany, hEither]
    exact ⟨rfl, rfl, rfl, rfl⟩

/-- From every cursor there is exactly one longest chain of rounds. It has no more rounds than
there are tokens, and the next round decides what a repetition gives. -/
theorem repeats_exactly (hReads : p.ReadsOn ready) (hReady : ready c st) :
    ∃ links d s, Longest p c st links d s ∧
      (∀ other e t, Longest p c st other e t → other = links ∧ e = d ∧ t = s) ∧
      links.length ≤ count c ∧ Repeats p c st links d s := by
  obtain ⟨links, d, s, hLongest⟩ := exists_longest hReads hReady
  exact ⟨links, d, s, hLongest, fun _ _ _ h => hLongest.unique h,
    hLongest.chain.length_le_count hReads hReady, hLongest.repeats hReads hReady⟩

end

/-- The parser of a part of an expression reads on where all that is stored is true. -/
theorem readsOn_part [Input C τ σ] [InputView C τ σ] [Token τ] [LawfulInput C] [ToValue τ]
    [ToValue σ] [LawfulToken τ] {P : Program} {root g : Grammar} {a : Address}
    (hAt : P.At root a g) (memory : Nat → List τ) (n : Nat) :
    (g.parser (P.level n) a : Parser C Value).ReadsOn
      fun c st => InMemory memory c ∧ P.Sound memory root st := by
  intro c st v d s hReady hRun
  obtain ⟨hMemory, hSound⟩ := hReady
  obtain ⟨hYields, hAfter⟩ := hSound.part_sound hAt hMemory hRun
  obtain ⟨tokens, hReads⟩ := hYields.reads
  exact ⟨⟨tokens, hReads⟩, hReads.inMemory hMemory, hAfter⟩

theorem readsOn_optional_satisfy [Input C τ σ] [InputView C τ σ] [Token τ] [LawfulInput C]
    (test : τ → Bool) :
    (optional (satisfy test) : Parser C (Option τ)).ReadsOn fun _ _ => True := by
  intro c st v d s _ hRun
  refine ⟨?_, trivial⟩
  rw [optional, onResult_eq] at hRun
  rcases takesOne_satisfy test c with ⟨token, e, -, hRead, hTake⟩ | ⟨-, hTake⟩
  · rw [hTake] at hRun
    cases hRun
    exact ⟨_, hRead⟩
  · rw [hTake] at hRun
    cases hRun
    exact ⟨[], .refl c⟩

/-- An optional digit is there twice and then missing, which is a success in place. A digit
that is stored is found in the first round, and the second round reads another one. -/
theorem repeats_exactly_of_digits :
    ((optional (satisfy Char.isDigit) : Parser (SliceCursor Char) _).ReadsOn (fun _ _ => True) ∧
      ∃ links d s, Longest (optional (satisfy Char.isDigit))
          (SliceCursor.ofSource ⟨0, #['1', '2', 'x']⟩) {} links d s ∧
        links.map Link.value = [some '1', some '2'] ∧ position d = 2 ∧
        AllStall (optional (satisfy Char.isDigit))
          (SliceCursor.ofSource ⟨0, #['1', '2', 'x']⟩) {} d) ∧
    ∃ (p : Parser (SliceCursor Char) Value) (st : State (SliceCursor Char)),
      p = (Grammar.memo (.satisfy Char.isDigit)).parser (Program.level {} 0) (.named "digit") ∧
      (st.table (.named "digit")).size = 1 ∧
      ∃ d t, many p (SliceCursor.ofSource ⟨0, #['1', '2', 'x']⟩) st =
        some (.ok ([.char '1', .char '2'], d), t) ∧ position d = 2 := by
  let c : SliceCursor Char := .ofSource ⟨0, #['1', '2', 'x']⟩
  constructor
  · let p : Parser (SliceCursor Char) (Option Char) := optional (satisfy Char.isDigit)
    have hReads : p.ReadsOn fun _ _ => True := readsOn_optional_satisfy Char.isDigit
    obtain ⟨links, d, s, hLongest, hUnique, -, hRepeats⟩ :=
      repeats_exactly (p := p) (c := c) hReads trivial
    obtain ⟨links', d', s', hChain, hValues, hPosition, hNext⟩ : ∃ links d s,
        Chain p c {} links d s ∧ links.map Link.value = [some '1', some '2'] ∧ position d = 2 ∧
          p d s = some (.ok (none, d), s) :=
      ⟨_, _, _, .cons rfl (by decide) (.cons rfl (by decide) (.nil _ _)), rfl, rfl, rfl⟩
    have hEnd : Longest p c {} links' d' s' := by
      refine hChain.longest_iff.mpr fun v e t hRound hLt => ?_
      rw [hNext] at hRound
      cases hRound
      exact Nat.lt_irrefl _ hLt
    obtain ⟨rfl, rfl, rfl⟩ := hUnique links' d' s' hEnd
    exact ⟨hReads, links', d', s', hLongest, hValues, hPosition, hRepeats.of_success _ _ _ hNext⟩
  · let digit : Grammar := .memo (.satisfy Char.isDigit)
    let program : Program := { shared := [("digit", digit)] }
    let p : Parser (SliceCursor Char) Value := digit.parser (program.level 0) (.named "digit")
    obtain ⟨v, d, st, links, e, t, f, u, hFirst, hSize, hChain, hValues, hPosition, hNext⟩ :
        ∃ v d st links e t f u, p c {} = some (.ok (v, d), st) ∧
          (st.table (.named "digit")).size = 1 ∧ Chain p c st links e t ∧
          links.map Link.value = [.char '1', .char '2'] ∧ position e = 2 ∧
          p e t = some (.error f, u) :=
      ⟨_, _, _, _, _, _, _, _, rfl, rfl,
        .cons rfl (by decide) (.cons rfl (by decide) (.nil _ _)), rfl, rfl, rfl⟩
    have hAt : program.At digit (.named "digit") digit := .named rfl
    have hMemory : InMemory (fun _ => ['1', '2', 'x']) c := ⟨[], rfl⟩
    obtain ⟨-, hSound⟩ := Program.Sound.empty.part_sound hAt hMemory hFirst
    obtain ⟨links', e', t', -, hUnique, -, hRepeats⟩ :=
      repeats_exactly (readsOn_part hAt _ 0) ⟨hMemory, hSound⟩
    have hEnd : Longest p c st links e t := by
      refine hChain.longest_iff.mpr fun w k x hRound _ => ?_
      rw [hNext] at hRound
      cases hRound
    obtain ⟨rfl, rfl, rfl⟩ := hUnique links e t hEnd
    have hMany := hRepeats.many_of_failure f u hNext
    rw [hValues] at hMany
    exact ⟨p, st, rfl, hSize, e, u, hMany, hPosition⟩

end Parser

end Packrat

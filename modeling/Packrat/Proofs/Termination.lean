import Packrat.Input.Slice.Lemmas
import Packrat.Proofs.Guarded
import Packrat.Proofs.Once
import Packrat.Proofs.Primitive

/-!
# Guarded programs return

Runs of a guarded program return, whatever their grammars do. A repetition ends since
each of its rounds reads on or is the last one, and a recursion ends since it reads on
before it comes back to a name.

* `Program.Returns`: a plain grammar yields some result at a cursor;
* `Program.Ready`: the names that a grammar may follow return where it may follow them,
  with `Ready.of_exposes` and `Ready.next` for its parts;
* `Program.Ready.returns`: then the grammar returns, by induction on it;
* `Program.Guarded.returns`: the names of a guarded program return, by induction on what
  is left of the source and on the names to which exposed references lead;
* `Session.Reachable.parse_returns`: so do the runs of a session.
-/

namespace Packrat

open Input

variable {C τ σ : Type} [Input C τ σ] [InputView C τ σ] [Token τ] [ToValue τ] [ToValue σ]

namespace Program

/-- A plain grammar yields some result where references are followed to a depth. -/
def Returns (P : Program) (n : Nat) (g : Grammar) (c : C) : Prop :=
  ∃ r, P.YieldsAt n g c r

/-- The names that a grammar follows where it starts return there, and all that are in it
return wherever something more has been read. -/
structure Ready (P : Program) (n : Nat) (g : Grammar) (c : C) : Prop where
  here : ∀ {x}, g.Exposes (P.Advances C) x → P.Returns n (.call x) c
  later : ∀ {x d tokens}, g.Mentions x → Reads c tokens d → position c < position d →
    P.Returns n (.call x) d

variable [LawfulInput C] [LawfulToken τ] {P : Program} {n : Nat} {g h whole : Grammar} {c d : C}
  {v : Value}

/-! ## Parts of a grammar -/

namespace Ready

omit [LawfulInput C] [LawfulToken τ] in
/-- A part that starts where the whole grammar does. -/
theorem of_exposes (hWhole : P.Ready n whole c)
    (hExposes : ∀ {p x}, g.Exposes p x → whole.Exposes p x) : P.Ready n g c where
  here hHere := hWhole.here (hExposes hHere)
  later hMentions := hWhole.later (hExposes hMentions)

omit [LawfulToken τ] in
/-- The same grammar after some reading. -/
theorem reads {tokens : List τ} (hReady : P.Ready n g c) (hReads : Reads c tokens d) :
    P.Ready n g d where
  here := by
    intro x hExposes
    by_cases hLt : position c < position d
    · exact hReady.later hExposes.mentions hReads hLt
    · have hNone := hReads.position_lt_iff.not.mp hLt
      rw [not_not] at hNone
      subst hNone
      obtain rfl := hReads.eq (.refl c)
      exact hReady.here hExposes
  later hMentions hMore hLt := by
    refine hReady.later hMentions (hReads.trans hMore) ?_
    have hPosition := hReads.position_eq
    omega

/-- A part that follows one that has succeeded. If that one has read nothing, then it is
not one of those that advance, and the part that follows is not guarded by it. -/
theorem next (hWhole : P.Ready n whole c) (hYields : P.YieldsAt n g c (.ok (v, d)))
    (hExposes : ∀ {p : Grammar → Prop} {x}, ¬p g → h.Exposes p x → whole.Exposes p x) :
    P.Ready n h d := by
  obtain ⟨tokens, hReads⟩ := hYields.reads
  have hMentions : ∀ {x}, h.Mentions x → whole.Mentions x := hExposes not_false
  refine ⟨fun hHere => ?_, fun hLater => (hWhole.reads hReads).later (hMentions hLater)⟩
  by_cases hLt : position c < position d
  · exact hWhole.later (hMentions hHere.mentions) hReads hLt
  · have hNot : ¬P.Advances C g := fun hAdvances => hLt (hAdvances hYields.yields)
    exact (hWhole.reads hReads).here (hExposes hNot hHere)

end Ready

/-! ## Repetition -/

/-- A repetition comes to an end if its rounds do: a round that is not the last one takes
something off what is left of the source. -/
theorem exists_rounds (hg : ∀ {d tokens}, Reads c tokens d → P.Returns n g d) :
    ∃ rs, Rounds (P.YieldsAt n g) c rs := by
  induction hLeft : left c using Nat.strong_induction_on generalizing c with
  | _ k ih =>
    subst hLeft
    obtain ⟨e | ⟨v, d⟩, hRound⟩ := hg (.refl c)
    · exact ⟨_, .stop hRound⟩
    · by_cases hLt : position c < position d
      · obtain ⟨tokens, hReads⟩ := hRound.reads
        obtain ⟨rs, hMore⟩ := ih (left d) (hReads.left_lt hLt)
          (fun hMore => hg (hReads.trans hMore)) rfl
        exact ⟨_, .more hRound hLt hMore⟩
      · exact ⟨_, .stall hRound hLt⟩

/-- The same where the first round must succeed. -/
theorem exists_rounds1 (hg : ∀ {d tokens}, Reads c tokens d → P.Returns n g d) :
    ∃ rs, Rounds1 (P.YieldsAt n g) c rs := by
  obtain ⟨e | ⟨v, d⟩, hRound⟩ := hg (.refl c)
  · exact ⟨_, .none hRound⟩
  · by_cases hLt : position c < position d
    · obtain ⟨tokens, hReads⟩ := hRound.reads
      obtain ⟨rs, hMore⟩ := exists_rounds fun hMore => hg (hReads.trans hMore)
      exact ⟨_, .more hRound hLt hMore⟩
    · exact ⟨_, .stall hRound hLt⟩

/-! ## Grammars -/

omit [LawfulToken τ] in
theorem returns_primitive {f : List τ → Peg.Outcome τ} (P : Program) (n : Nat)
    (hPrimitive : Peg.primitive? (sliceValue C) g = some f) (c : C) : P.Returns n g c := by
  obtain ⟨r, -, hIff⟩ := P.exists_yieldsAt_primitive n hPrimitive c
  exact ⟨r, (hIff r).mpr rfl⟩

/-- A grammar returns if the names do that it may follow. By induction on the grammar. -/
theorem Ready.returns (hReady : P.Ready n g c) : P.Returns n g c := by
  induction g generalizing c with
  | call x => exact hReady.here rfl
  | pure | satisfy | skipIf | endOfInput | take | takeWhile | takeWhile1 | skipWhile | literal
  | literalAnyCase => exact P.returns_primitive n rfl c
  | map f g ih =>
    obtain ⟨r, hg⟩ := ih (hReady.of_exposes id)
    exact ⟨_, yieldsAt_map_iff.mpr ⟨r, hg, rfl⟩⟩
  | convert name reason f g ih =>
    obtain ⟨r, hg⟩ := ih (hReady.of_exposes id)
    exact ⟨_, yieldsAt_convert_iff.mpr ⟨r, hg, rfl⟩⟩
  | label name g ih =>
    obtain ⟨r, hg⟩ := ih (hReady.of_exposes id)
    exact ⟨_, yieldsAt_label_iff.mpr ⟨r, hg, rfl⟩⟩
  | lexeme name g ih =>
    obtain ⟨r, hg⟩ := ih (hReady.of_exposes id)
    exact ⟨_, yieldsAt_lexeme_iff.mpr ⟨r, hg, rfl⟩⟩
  | optional g ih =>
    obtain ⟨r, hg⟩ := ih (hReady.of_exposes id)
    exact ⟨_, yieldsAt_optional_iff.mpr ⟨r, hg, rfl⟩⟩
  | option default g ih =>
    obtain ⟨r, hg⟩ := ih (hReady.of_exposes id)
    exact ⟨_, yieldsAt_option_iff.mpr ⟨r, hg, rfl⟩⟩
  | notFollowedBy g ih =>
    obtain ⟨r, hg⟩ := ih (hReady.of_exposes id)
    exact ⟨_, yieldsAt_notFollowedBy_iff.mpr ⟨r, hg, rfl⟩⟩
  | tally name g ih =>
    obtain ⟨r, hg⟩ := ih (hReady.of_exposes id)
    exact ⟨r, yieldsAt_tally_iff.mpr hg⟩
  | memo g ih => exact ih (hReady.of_exposes id)
  | fresh g ih => exact ih (hReady.of_exposes id)
  | both g h ihg ihh =>
    obtain ⟨e | ⟨v, d⟩, hg⟩ := ihg (hReady.of_exposes .inl)
    · exact ⟨_, yieldsAt_both_iff.mpr ⟨_, hg, rfl⟩⟩
    · obtain ⟨r, hh⟩ := ihh (hReady.next hg fun hNot hRight => .inr ⟨hNot, hRight⟩)
      exact ⟨_, yieldsAt_both_iff.mpr ⟨_, hg, r, hh, rfl⟩⟩
  | seqRight g h ihg ihh =>
    obtain ⟨e | ⟨v, d⟩, hg⟩ := ihg (hReady.of_exposes .inl)
    · exact ⟨_, yieldsAt_seqRight_iff.mpr ⟨_, hg, rfl⟩⟩
    · obtain ⟨r, hh⟩ := ihh (hReady.next hg fun hNot hRight => .inr ⟨hNot, hRight⟩)
      exact ⟨r, yieldsAt_seqRight_iff.mpr ⟨_, hg, hh⟩⟩
  | seqLeft g h ihg ihh =>
    obtain ⟨e | ⟨v, d⟩, hg⟩ := ihg (hReady.of_exposes .inl)
    · exact ⟨_, yieldsAt_seqLeft_iff.mpr ⟨_, hg, rfl⟩⟩
    · obtain ⟨r, hh⟩ := ihh (hReady.next hg fun hNot hRight => .inr ⟨hNot, hRight⟩)
      exact ⟨_, yieldsAt_seqLeft_iff.mpr ⟨_, hg, r, hh, rfl⟩⟩
  | apply g h ihg ihh =>
    obtain ⟨e | ⟨v, d⟩, hg⟩ := ihg (hReady.of_exposes .inl)
    · exact ⟨_, yieldsAt_apply_iff.mpr ⟨_, hg, rfl⟩⟩
    · obtain ⟨r, hh⟩ := ihh (hReady.next hg fun hNot hRight => .inr ⟨hNot, hRight⟩)
      exact ⟨_, yieldsAt_apply_iff.mpr ⟨_, hg, r, hh, rfl⟩⟩
  | bind g k ihg ihk =>
    obtain ⟨e | ⟨v, d⟩, hg⟩ := ihg (hReady.of_exposes .inl)
    · exact ⟨_, yieldsAt_bind_iff.mpr ⟨_, hg, rfl⟩⟩
    · obtain ⟨r, hk⟩ := ihk v (hReady.next hg fun hNot hNext => .inr ⟨hNot, v, hNext⟩)
      exact ⟨r, yieldsAt_bind_iff.mpr ⟨_, hg, hk⟩⟩
  | orElse g h ihg ihh =>
    obtain ⟨r₂, hh⟩ := ihh (hReady.of_exposes .inr)
    obtain ⟨e | ⟨v, d⟩, hg⟩ := ihg (hReady.of_exposes .inl)
    · exact ⟨_, yieldsAt_orElse_iff.mpr ⟨_, hg, r₂, hh, rfl⟩⟩
    · exact ⟨_, yieldsAt_orElse_iff.mpr ⟨_, hg, rfl⟩⟩
  | marked default g h ihg ihh =>
    obtain ⟨e | ⟨v, d⟩, hg⟩ := ihg (hReady.of_exposes .inl)
    · exact ⟨_, yieldsAt_marked_iff.mpr ⟨_, hg, rfl⟩⟩
    · obtain ⟨r, hh⟩ := ihh (hReady.next hg fun hNot hRight => .inr ⟨hNot, hRight⟩)
      exact ⟨r, yieldsAt_marked_iff.mpr ⟨_, hg, hh⟩⟩
  | many g ih =>
    obtain ⟨rs, hRounds⟩ := exists_rounds fun hReads => ih ((hReady.reads hReads).of_exposes id)
    exact ⟨_, yieldsAt_many_iff.mpr ⟨rs, hRounds, rfl⟩⟩
  | many1 g ih =>
    obtain ⟨rs, hRounds⟩ := exists_rounds1 fun hReads => ih ((hReady.reads hReads).of_exposes id)
    exact ⟨_, yieldsAt_many1_iff.mpr ⟨rs, hRounds, rfl⟩⟩
  | skipMany g ih =>
    obtain ⟨rs, hRounds⟩ := exists_rounds fun hReads => ih ((hReady.reads hReads).of_exposes id)
    exact ⟨_, yieldsAt_skipMany_iff.mpr ⟨rs, hRounds, rfl⟩⟩
  | skipMany1 g ih =>
    obtain ⟨rs, hRounds⟩ := exists_rounds1 fun hReads => ih ((hReady.reads hReads).of_exposes id)
    exact ⟨_, yieldsAt_skipMany1_iff.mpr ⟨rs, hRounds, rfl⟩⟩

/-! ## Names -/

namespace Guarded

variable {x : Reference} {start : C}

/-- A name returns wherever a run from a start may come to, by induction on what is left
of the source and, where nothing is read, on the names to which exposed references lead. -/
theorem returns_call (h : P.Guarded C) (hDeep : P.names.length * (left start + 1) ≤ n)
    (hName : (P.find? x).isSome) (hWithin : ∃ tokens, Reads start tokens c) :
    P.Returns n (.call x) c := by
  induction hLeft : left c using Nat.strong_induction_on generalizing c x with
  | _ k ihLeft =>
  induction hRank : P.rank C x using Nat.strong_induction_on generalizing x with
  | _ l ihRank =>
    subst hLeft hRank
    obtain ⟨g, hg⟩ := Option.isSome_iff_exists.mp hName
    have hReady : P.Ready n g c := by
      refine ⟨fun {y} hExposes => ?_, fun {y d _} hMentions hReads hLt => ?_⟩
      · have hExposed : P.Exposes C x y := ⟨g, hg, hExposes⟩
        exact ihRank _ (h.rank_lt hExposed) (h.defined hExposed.refers) rfl
      · exact ihLeft _ (hReads.left_lt hLt) (h.defined ⟨g, hg, hMentions⟩)
          (Reads.exists_trans hWithin hReads) rfl
    obtain ⟨r, hYields⟩ := hReady.returns
    obtain ⟨tokens, hReads⟩ := hWithin
    exact ⟨r, (yieldsAt_call_iff_of_deep hReads hDeep).mpr ⟨g, hg, hYields⟩⟩

/-- Every grammar over the names of a guarded program yields some result. -/
theorem returns (h : P.Guarded C) (hDefined : ∀ x, g.Mentions x → (P.find? x).isSome) (c : C) :
    ∃ r, P.Yields g c r := by
  have hReady : P.Ready (P.names.length * (left c + 1)) g c :=
    ⟨fun hExposes => h.returns_call le_rfl (hDefined _ hExposes.mentions) ⟨[], .refl c⟩,
      fun hMentions hReads _ => h.returns_call le_rfl (hDefined _ hMentions) ⟨_, hReads⟩⟩
  obtain ⟨r, hYields⟩ := hReady.returns
  exact ⟨r, hYields.yields⟩

end Guarded

/-- To read one token is to read on. -/
theorem advances_satisfy (P : Program) (test : Char → Bool) : P.Advances C (.satisfy test) := by
  intro c v d hYields
  obtain ⟨n, hYieldsAt⟩ := yields_iff.mp hYields
  have hFirst : Peg.primitive? (sliceValue C) (.satisfy test) =
      some (Peg.first test ToValue.toValue) := rfl
  obtain ⟨r, hOutcome, hIff⟩ := P.exists_yieldsAt_primitive n hFirst c
  obtain rfl := (hIff _).mp hYieldsAt
  obtain ⟨tokens, hReads⟩ := hYieldsAt.reads
  rw [hReads.position_lt_iff_after_ne]
  intro hStay
  change Peg.Outcome.success v (after d) = _ at hOutcome
  rw [hStay] at hOutcome
  rcases hAfter : after c with _ | ⟨token, more⟩
  · rw [hAfter] at hOutcome
    cases hOutcome
  · rw [hAfter, Peg.first] at hOutcome
    split at hOutcome
    · injection hOutcome with _ hRest
      exact List.cons_ne_self _ _ hRest
    · cases hOutcome

end Program

/-! ## Runs -/

namespace Session

variable {session : Session C} {memory : Nat → List τ} {g : Grammar} {c : C}

/-- Whatever has been run and stored before, a run of a grammar over the names of a
guarded program returns, and every repetition in it makes at most one round more than
there are tokens left where it starts. -/
theorem Reachable.parse_returns [LawfulInput C] [LawfulToken τ] (h : session.Reachable memory)
    (hGuarded : session.program.Guarded C)
    (hDefined : ∀ x, g.Mentions x → (session.program.find? x).isSome)
    (hMemory : InMemory memory c) :
    ∃ report next, session.parse g c = some (report, next) ∧
      ∀ tokens rounds, .repeated tokens rounds ∈ session.events g c → rounds ≤ tokens + 1 := by
  obtain ⟨r, hYields⟩ := hGuarded.returns hDefined c
  have hResult := (h.result?_iff hMemory).mpr hYields
  obtain ⟨⟨report, next⟩, hParse, -⟩ := Option.map_eq_some_iff.mp hResult
  -- The rounds are counted beside the run of the plain program, which returns as well.
  have hPlain : (Session.mk session.program.plain {}).result? g.plain c = some r :=
    result?_plain_iff.mpr hYields
  obtain ⟨⟨bareReport, bareNext⟩, hBare, -⟩ := Option.map_eq_some_iff.mp hPlain
  have hAccount := (settled h rfl hMemory hParse hBare).1
  exact ⟨report, next, hParse, fun _ _ => hAccount.rounds⟩

/-- Nested brackets are run twice in one session. The second round of the repetition reads
nothing, so it is the last one. -/
theorem parse_returns_of_stalled :
    ∃ session : Session (SliceCursor Char), session.Reachable (fun _ => ['(', '(', ')', ')']) ∧
      (session.table "nest").size = 4 ∧
      (session.events (.many (.optional (.call (.shared "nest"))))
        (.ofSource ⟨0, #['(', '(', ')', ')']⟩)).getLast? = some (.repeated 4 2) ∧
      ∃ report next, session.parse (.many (.optional (.call (.shared "nest"))))
        (.ofSource ⟨0, #['(', '(', ')', ')']⟩) = some (report, next) := by
  let body : Grammar := .memo (.seqLeft (.seqRight (.satisfy (· == '('))
    (.optional (.call (.shared "nest")))) (.satisfy (· == ')')))
  let program : Program := { shared := [("nest", body)] }
  let g : Grammar := .many (.optional (.call (.shared "nest")))
  let c : SliceCursor Char := .ofSource ⟨0, #['(', '(', ')', ')']⟩
  have hFind : ∀ {x h}, program.find? x = some h → h = body := by
    rintro (name | name) h hName
    · cases hName
    · have hMem : (name, h) ∈ program.shared := mem_of_lookup hName
      cases List.mem_singleton.mp hMem
      rfl
  have hGuarded : program.Guarded (SliceCursor Char) := by
    refine Program.guarded_of_recursive ?_ ?_
    · rintro x y ⟨h, hName, hMentions⟩
      obtain rfl := hFind hName
      rcases hMentions with (hNone | ⟨-, rfl⟩) | ⟨-, hNone⟩
      · exact hNone.elim
      · rfl
      · exact hNone.elim
    · rintro x y ⟨h, hName, hExposes⟩
      obtain rfl := hFind hName
      rcases hExposes with (hNone | ⟨hNot, -⟩) | ⟨-, hNone⟩
      · exact hNone.elim
      · exact absurd (program.advances_satisfy _) hNot
      · exact hNone.elim
  obtain ⟨report, session, hParse, hSize, hEvents, hProgram⟩ : ∃ report session,
      ({ program } : Session (SliceCursor Char)).parse g c = some (report, session) ∧
      (session.table "nest").size = 4 ∧
      (session.events g c).getLast? = some (.repeated 4 2) ∧ session.program = program :=
    ⟨_, _, rfl, rfl, rfl, rfl⟩
  have hMemory : InMemory (fun _ => ['(', '(', ')', ')']) c := ⟨[], rfl⟩
  have hSession : session.Reachable (fun _ => ['(', '(', ')', ')']) :=
    .parse (.start program) hMemory hParse
  have hDefined : ∀ x, g.Mentions x → (session.program.find? x).isSome := by
    rintro x rfl
    rw [hProgram]
    rfl
  obtain ⟨report', next, hParse', -⟩ :=
    hSession.parse_returns (hProgram ▸ hGuarded) hDefined hMemory
  exact ⟨session, hSession, hSize, hEvents, report', next, hParse'⟩

end Session

end Packrat

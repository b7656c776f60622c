import Packrat.Proofs.Account
import Packrat.Proofs.Consumption
import Packrat.Proofs.Counters
import Packrat.Proofs.Primitive

/-!
# Runs with accounts

An observed run of a grammar and a run of the plain grammar, from one cursor. If both
return, they give one result, the observed run has an account of its events, and it has
raised no counter by more than the plain run.

* `Accounted`: the two runs, with one lemma for every way to build a run:
  `Accounted.followedBy`, `Accounted.foldFrom`, `Accounted.memo` and the like;
* `Program.accounted_grammar`: the runs of a grammar, by induction on the grammar;
* `Program.accounted_level`, `Program.accounted`: the runs of names, by induction on the
  depth of references, and of whole programs.
-/

namespace Packrat

open Input List

section

variable {C τ σ α β γ : Type} [Input C τ σ] [InputView C τ σ] [Token τ] [ToValue τ] [ToValue σ]

/-- An observed run and a plain one that have returned. -/
structure Settlement (P : Program) (memory : Nat → List τ) (root : Grammar) (n : Nat) (a : Address)
    (c : C) (st s st' s' : State C) (events : List Event) (r r' : Result C α) : Prop where
  result_eq : r' = r
  reaches : r.From c
  sound : P.Sound memory root s
  account : Account P memory n a st s events
  counter_le : ∀ x, s.counter x + st'.counter x ≤ s'.counter x + st.counter x

/-- If an observed run, from a state that is sound, and a plain run both return, their
ends fit together. -/
def Accounted (P : Program) (memory : Nat → List τ) (root : Grammar) (n : Nat) (a : Address)
    (c : C) (x : ObservedRun C α) (y : Run C α) : Prop :=
  ∀ ⦃st st' s s' events r r'⦄, P.Sound memory root st → x st = some ((r, s), events) →
    y st' = some (r', s') → Settlement P memory root n a c st s st' s' events r r'

namespace Accounted

variable {P : Program} {memory : Nat → List τ} {root root' g : Grammar} {m n : Nat}
  {a b : Address} {c d : C} {x : ObservedRun C α} {y : Run C α}

/-! ## Runs -/

theorem stop {r : Result C α} (hReaches : r.From c) :
    Accounted P memory root n a c (.stop r) (.stop r) := by
  intro st st' s s' events r r' hSound hx hy
  cases hx
  cases hy
  exact ⟨rfl, hReaches, hSound, .nil fun _ => rfl, fun x => Nat.le_of_eq (Nat.add_comm _ _)⟩

theorem followedBy (h : Accounted P memory root n a c x y)
    {next : Result C α → ObservedRun C β} {next' : Result C α → Run C β}
    (hNext : ∀ r, r.From c → Accounted P memory root n a c (next r) (next' r)) :
    Accounted P memory root n a c (x.followedBy next) (y.followedBy next') := by
  intro st st' s s' events r r' hSound hx hy
  obtain ⟨r₁, s₁, first, rest, hx₁, hx₂, rfl⟩ := ObservedRun.followedBy_eq_some_iff.mp hx
  obtain ⟨r₁', s₁', hy₁, hy₂⟩ := Run.followedBy_eq_some_iff.mp hy
  have hFirst := h hSound hx₁ hy₁
  obtain rfl := hFirst.result_eq
  have hRest := hNext _ hFirst.reaches hFirst.sound hx₂ hy₂
  refine ⟨hRest.result_eq, hRest.reaches, hRest.sound, hFirst.account.append hRest.account,
    fun x => ?_⟩
  have hFirstLe := hFirst.counter_le x
  have hRestLe := hRest.counter_le x
  omega

theorem noting (h : Accounted P memory root n a c x y) (entry entry' : Record) :
    Accounted P memory root n a c (.noting entry x) (.noting entry' y) := by
  intro st st' s s' events r r' hSound hx hy
  have hEnd := h (hSound.note entry) hx hy
  exact ⟨hEnd.result_eq, hEnd.reaches, hEnd.sound,
    hEnd.account.congr (fun _ => (st.lookup_note _ _ entry).symm) fun _ => rfl, hEnd.counter_le⟩

theorem repeated {tokens rounds : Nat} (h : Accounted P memory root n a c x y)
    (hLe : rounds ≤ tokens + 1) :
    Accounted P memory root n a c (.seeing (.repeated tokens rounds) x) y := by
  intro st st' s s' events r r' hSound hx hy
  obtain ⟨⟨⟨r₁, s₁⟩, inner⟩, hx₁, hEq⟩ := Option.map_eq_some_iff.mp hx
  cases hEq
  have hEnd := h hSound hx₁ hy
  exact { hEnd with account := hEnd.account.repeated hLe }

/-- What is reached from a cursor that has been reached. -/
theorem reach {tokens : List τ} (h : Accounted P memory root n a d x y)
    (hReads : Reads c tokens d) : Accounted P memory root n a c x y := by
  intro st st' s s' events r r' hSound hx hy
  have hEnd := h hSound hx hy
  refine { hEnd with reaches := ?_ }
  have hReaches := hEnd.reaches
  rcases r with e | ⟨v, d'⟩
  · trivial
  · obtain ⟨more, hMore⟩ : ∃ more, Reads d more d' := hReaches
    exact ⟨tokens ++ more, hReads.trans hMore⟩

theorem of_turn {t : Turn} (h : Accounted P memory root n (a.turn t) c x y) :
    Accounted P memory root n a c x y := by
  intro st st' s s' events r r' hSound hx hy
  have hEnd := h hSound hx hy
  exact { hEnd with account := hEnd.account.of_turn }

/-- What is given where a reference has been followed is of a lesser depth. -/
theorem of_lt (h : Accounted P memory root m b c x y) (hLt : m < n) :
    Accounted P memory root n a c x y := by
  intro st st' s s' events r r' hSound hx hy
  have hEnd := h hSound hx hy
  exact { hEnd with account := hEnd.account.of_lt hLt }

/-! ## Parsers -/

variable {p : Observed C α} {q : Parser C α} {p' : Observed C β} {q' : Parser C β}

theorem onResult (h : Accounted P memory root n a c (p c) (q c))
    {f : C → Result C α → Result C β} (hFrom : ∀ r : Result C α, r.From c → (f c r).From c)
    (hEq : q' c = Run.followedBy (q c) fun r => Run.stop (f c r)) :
    Accounted P memory root n a c (Observed.onResult f p c) (q' c) := by
  rw [hEq]
  exact h.followedBy fun r hr => .stop (hFrom r hr)

theorem map (h : Accounted P memory root n a c (p c) (q c)) (f : α → β) :
    Accounted P memory root n a c (Observed.map f p c) (Parser.map f q c) :=
  h.onResult (fun _ hr => hr.map f) (Parser.map_eq f q)

theorem bind (h : Accounted P memory root n a c (p c) (q c)) {k : α → Observed C β}
    {k' : α → Parser C β} (hNext : ∀ {v d tokens}, Reads c tokens d →
      Accounted P memory root n a d (k v d) (k' v d)) :
    Accounted P memory root n a c (Observed.bind p k c) (Parser.bind q k' c) := by
  rw [Parser.bind_eq]
  refine h.followedBy fun r hr => ?_
  rcases r with e | ⟨v, d⟩
  · exact .stop trivial
  · obtain ⟨tokens, hReads⟩ : ∃ tokens, Reads c tokens d := hr
    exact (hNext hReads).reach hReads

theorem both (h : Accounted P memory root n a c (p c) (q c))
    (hNext : ∀ {d tokens}, Reads c tokens d → Accounted P memory root n a d (p' d) (q' d))
    (f : α × β → γ) : Accounted P memory root n a c
      (Observed.both (fun v w => f (v, w)) p p' c) (Parser.map f (.both q q') c) := by
  rw [Parser.map_both_eq]
  exact h.bind fun hReads => (hNext hReads).map _

theorem marked (h : Accounted P memory root n a c (p c) (q c))
    (hNext : ∀ {d tokens}, Reads c tokens d → Accounted P memory root n a d (p' d) (q' d))
    (default : β) : Accounted P memory root n a c (Observed.marked default p p' c)
      (Parser.marked default q q' c) := by
  rw [Parser.marked_eq]
  refine h.followedBy fun r hr => ?_
  rcases r with e | ⟨v, d⟩
  · exact .stop ⟨[], .refl c⟩
  · obtain ⟨tokens, hReads⟩ : ∃ tokens, Reads c tokens d := hr
    exact (hNext hReads).reach hReads

theorem orElse {p' : Observed C α} {q' : Parser C α}
    (h : Accounted P memory root n a c (p c) (q c))
    (hNext : Accounted P memory root n a c (p' c) (q' c)) :
    Accounted P memory root n a c (Observed.orElse p p' c) (Parser.orElse q q' c) := by
  rw [Parser.orElse_eq]
  refine h.followedBy fun r hr => ?_
  rcases r with e | ⟨v, d⟩
  · exact (hNext.followedBy fun r hr => .stop (hr.mapError _)).noting _ _
  · exact .stop hr

theorem tally (h : Accounted P memory root n a c (p c) (q c)) (name : String) :
    Accounted P memory root n a c (Observed.tally name p c) (Parser.tally name q c) := by
  intro st st' s s' events r r' hSound hx hy
  have hEnd := h (hSound.tally name) hx hy
  refine ⟨hEnd.result_eq, hEnd.reaches, hEnd.sound,
    hEnd.account.congr (fun _ => (st.lookup_tally _ _ name).symm) fun _ => rfl, fun x => ?_⟩
  have hLe := hEnd.counter_le x
  rw [State.counter_tally, State.counter_tally] at hLe
  split at hLe
  · omega
  · exact hLe

theorem inFreshScope (h : Accounted P memory root' n .fresh c (p c) y) :
    Accounted P memory root n a c (Observed.inFreshScope p c) y := by
  intro st st' s s' events r r' hSound hx hy
  obtain ⟨⟨⟨r₁, s₁⟩, inner⟩, hx₁, hEq⟩ := Option.map_eq_some_iff.mp hx
  cases hEq
  have hEnd := h hSound.fresh hx₁ hy
  exact ⟨hEnd.result_eq, hEnd.reaches, hSound.restore hEnd.sound,
    hEnd.account.of_fresh.congr (fun hLasting => (State.lookup_fresh_of_lasting hLasting _).symm)
      fun hLasting => State.lookup_restore_of_lasting hLasting _ _, hEnd.counter_le⟩

theorem inFreshScope_plain (h : Accounted P memory root n a c x (q c)) :
    Accounted P memory root n a c x (Parser.inFreshScope q c) := by
  intro st st' s s' events r r' hSound hx hy
  obtain ⟨s₁', hy₁, rfl⟩ := Parser.inFreshScope_eq_some_iff.mp hy
  have hEnd := h hSound hx hy₁
  exact ⟨hEnd.result_eq, hEnd.reaches, hEnd.sound, hEnd.account, hEnd.counter_le⟩

/-! ## Repetition -/

theorem stalled : Accounted P memory root n a c (Observed.stalled (β := β) c) (Parser.stalled c) :=
  (Accounted.stop (r := .error (.new c .noProgress)) trivial).noting _ _

variable [LawfulInput C]

/-- The rounds that have been made and the tokens that are left are together no more
than the tokens that were left to the repetition. -/
theorem foldFrom (combine : β → α → β) {tokens : Nat}
    (h : ∀ {d more}, Reads c more d → Accounted P memory root n a d (p d) (q d)) (k : Nat) :
    ∀ {rounds acc d more}, Reads c more d → rounds + count d ≤ tokens →
      Accounted P memory root n a d (Observed.foldFrom combine p tokens k rounds acc d)
        (Parser.foldFrom combine q k acc d) := by
  induction k with
  | zero =>
    intro rounds acc d more _ _ st st' s s' events r r' _ hx _
    cases hx
  | succ k ih =>
    intro rounds acc d more hReads hLe
    rw [Parser.foldFrom_succ]
    refine (h hReads).followedBy fun r hr => ?_
    rcases r with e | ⟨v, d'⟩
    · exact (Accounted.stop (r := .ok (acc, d)) ⟨[], .refl d⟩).repeated (by omega)
    · obtain ⟨round, hRound⟩ : ∃ round, Reads d round d' := hr
      simp only [Result.cases_ok]
      split
      · rename_i hLt
        have hCount := hRound.count_eq
        have hSome := length_pos_iff.mpr (hRound.position_lt_iff.mp hLt)
        exact (ih (hReads.trans hRound) (by omega)).reach hRound
      · exact stalled.repeated (by omega)

theorem fold (h : ∀ {d tokens}, Reads c tokens d → Accounted P memory root n a d (p d) (q d))
    (combine : β → α → β) (start : β) : Accounted P memory root n a c
      (Observed.fold combine start p c) (Parser.fold combine start q c) :=
  foldFrom combine h _ (.refl c) (Nat.zero_add _).le

theorem fold1 (h : ∀ {d tokens}, Reads c tokens d → Accounted P memory root n a d (p d) (q d))
    (combine : β → α → β) (start : β) : Accounted P memory root n a c
      (Observed.fold1 combine start p c) (Parser.fold1 combine start q c) := by
  rw [Parser.fold1_eq]
  refine (h (.refl c)).followedBy fun r hr => ?_
  rcases r with e | ⟨v, d⟩
  · exact .stop trivial
  · obtain ⟨tokens, hReads⟩ : ∃ tokens, Reads c tokens d := hr
    simp only [Result.cases_ok]
    split
    · exact (fold (fun hMore => h (hReads.trans hMore)) combine _).reach hReads
    · exact stalled

/-! ## Stored results -/

variable [LawfulToken τ]

/-- A memoised parser. Where the parser inside it has to be run, it is set beside a run of
the plain grammar that follows references no more deeply than it has to: the account of
this run shows that the parser does not start itself again. -/
theorem memo {p : Observed C Value} (hAt : P.At root a (.memo g)) (hMemory : InMemory memory c)
    (h : ∀ m, Accounted P memory root m (a.turn .inside) c (p c)
      (g.plain.parser (P.plain.level m) b c)) :
    Accounted P memory root n a c (Observed.memo a p c) (g.plain.parser (P.plain.level n) b c) := by
  intro st st' s s' events r r' hSound hx hy
  have hYields := (P.means n g b).gives.mp ⟨st', s', hy⟩
  rcases Observed.memo_cases hx with ⟨hFound, rfl, rfl⟩ | ⟨hNone, s₁, inner, hx₁, rfl, rfl⟩
  · obtain ⟨g', hStored, hYields'⟩ := hSound hMemory hFound
    rw [hAt.stored?_eq] at hStored
    cases hStored
    obtain rfl := hYields.yields.unique hYields'
    have hSome : st.lookup a (place c) ≠ none := by simp [hFound]
    refine ⟨rfl, hYields.reaches, hSound.note _, .found hSome hMemory (st.lookup_note _ _ _),
      fun x => ?_⟩
    have hMono := (Program.plain_run_counts (b := b) (Nat.le_refl n) hy rfl).2 x
    rw [State.counter_note]
    omega
  · obtain ⟨m, hLe, hLeastYields, hLeast⟩ := hYields.exists_least
    obtain ⟨s₀, hy₀⟩ := (P.means m g b).run hLeastYields st'
    obtain ⟨⟨s₂, hy₂, hCounts⟩, -⟩ := Program.plain_run_counts (b := b) hLe hy₀ rfl
    rw [hy] at hy₂
    cases hy₂
    have hEnd := h m hSound hx₁ hy₀
    obtain rfl := hEnd.result_eq
    refine ⟨rfl, hEnd.reaches, hEnd.sound.store hAt.stored?_eq hMemory hYields.yields,
      (hEnd.account.memoised hNone hMemory hAt.stored?_eq_of_lasting hLeastYields hLeast).mono hLe,
      fun x => ?_⟩
    have hLe := hEnd.counter_le x
    have hCounter : s'.counter x = s₀.counter x := congrArg (·.getD x 0) hCounts
    rw [State.counter_store]
    omega

/-! ## Grammars -/

/-- A grammar without parts ends at once. -/
theorem primitive {f : List τ → Peg.Outcome τ}
    (hPrimitive : Peg.primitive? (sliceValue C) g = some f) (call : Reference → Parser C Value) :
    Accounted P memory root n a c (Observed.quiet (g.parser call a) c)
      (g.plain.parser (P.plain.level n) b c) := by
  obtain ⟨p, hStops, hPlain, hEq⟩ := Peg.exists_stops hPrimitive
  obtain ⟨r, -, hRun⟩ := hStops c
  have hYields : P.YieldsAt n g c r := by
    unfold Program.YieldsAt
    rw [hPlain, hEq, hRun]
    exact Run.gives_stop.mpr rfl
  unfold Observed.quiet
  rw [hPlain, hEq, hEq, hRun]
  exact .stop hYields.reaches

end Accounted

namespace Program

variable {P : Program} {memory : Nat → List τ} [LawfulInput C] [LawfulToken τ]

open Accounted

/-- The runs of a grammar have accounts if those of the names do, by induction on the
grammar. -/
theorem accounted_grammar {call : Reference → Observed C Value}
    (hCall : ∀ {n root a c} x, InMemory memory c →
      Accounted P memory root n a c (call x c) (P.plain.level n x c)) (g : Grammar) :
    ∀ {n b root a c}, P.At root a g → InMemory memory c →
      Accounted P memory root n a c (g.observed call a c)
        (g.plain.parser (P.plain.level n) b c) := by
  induction g with
  | pure | satisfy | skipIf | endOfInput | take | takeWhile | takeWhile1 | skipWhile | literal
  | literalAnyCase => exact fun _ _ => primitive rfl _
  | map f g ih => exact fun hAt hMemory => (ih hAt hMemory).map f
  | convert name reason f g ih =>
    intro n b root a c hAt hMemory
    refine (ih hAt hMemory).onResult (fun r hr => ?_) (Parser.convert_eq name reason f _)
    rcases r with e | ⟨v, d⟩
    · exact hr
    · rw [Result.cases_ok]
      rcases f v with _ | w
      · trivial
      · exact hr
  | both g h ihg ihh =>
    intro n b root a c hAt hMemory
    have hLeft := hAt.turn .left fun _ => rfl
    have hRight := hAt.turn .right fun _ => rfl
    exact (ihg hLeft hMemory).of_turn.both
      (fun hReads => (ihh hRight (hReads.inMemory hMemory)).of_turn)
      fun pair => Value.pair pair.1 pair.2
  | seqRight g h ihg ihh =>
    intro n b root a c hAt hMemory
    have hLeft := hAt.turn .left fun _ => rfl
    have hRight := hAt.turn .right fun _ => rfl
    exact (ihg hLeft hMemory).of_turn.both
      (fun hReads => (ihh hRight (hReads.inMemory hMemory)).of_turn) Prod.snd
  | seqLeft g h ihg ihh =>
    intro n b root a c hAt hMemory
    have hLeft := hAt.turn .left fun _ => rfl
    have hRight := hAt.turn .right fun _ => rfl
    exact (ihg hLeft hMemory).of_turn.both
      (fun hReads => (ihh hRight (hReads.inMemory hMemory)).of_turn) Prod.fst
  | apply g h ihg ihh =>
    intro n b root a c hAt hMemory
    have hLeft := hAt.turn .left fun _ => rfl
    have hRight := hAt.turn .right fun _ => rfl
    unfold Grammar.plain Grammar.parser
    rw [Parser.apply_map_eq]
    exact (ihg hLeft hMemory).of_turn.both
      (fun hReads => (ihh hRight (hReads.inMemory hMemory)).of_turn)
      fun pair => pair.1.call pair.2
  | bind g k ihg ihk =>
    intro n b root a c hAt hMemory
    exact (ihg hAt hMemory).bind fun {v} _ _ hReads =>
      ((ihk v .fresh (hReads.inMemory hMemory)).inFreshScope).inFreshScope_plain
  | orElse g h ihg ihh =>
    intro n b root a c hAt hMemory
    have hLeft := hAt.turn .left fun _ => rfl
    have hRight := hAt.turn .right fun _ => rfl
    exact (ihg hLeft hMemory).of_turn.orElse (ihh hRight hMemory).of_turn
  | label name g ih =>
    intro n b root a c hAt hMemory
    exact (ih hAt hMemory).onResult (fun _ hr => hr.mapError _) (Parser.label_eq name _)
  | lexeme name g ih =>
    intro n b root a c hAt hMemory
    exact (ih hAt hMemory).onResult (fun _ hr => hr.mapError _) (Parser.lexeme_eq name _)
  | optional g ih =>
    intro n b root a c hAt hMemory
    refine (ih hAt hMemory).onResult (fun r hr => ?_) (Parser.map_optional_eq _ _)
    rcases r with e | ⟨v, d⟩
    · exact ⟨[], .refl c⟩
    · exact hr
  | option default g ih =>
    intro n b root a c hAt hMemory
    refine (ih hAt hMemory).onResult (fun r hr => ?_) (Parser.option_eq default _)
    rcases r with e | ⟨v, d⟩
    · exact ⟨[], .refl c⟩
    · exact hr
  | marked default g h ihg ihh =>
    intro n b root a c hAt hMemory
    have hLeft := hAt.turn .left fun _ => rfl
    have hRight := hAt.turn .right fun _ => rfl
    exact (ihg hLeft hMemory).of_turn.marked
      (fun hReads => (ihh hRight (hReads.inMemory hMemory)).of_turn) default
  | notFollowedBy g ih =>
    intro n b root a c hAt hMemory
    refine (ih hAt hMemory).onResult (fun r _ => ?_) (Parser.replace_notFollowedBy_eq _ _)
    rcases r with e | ⟨v, d⟩
    · exact ⟨[], .refl c⟩
    · trivial
  | many g ih =>
    intro n b root a c hAt hMemory
    have hPart : ∀ {d tokens}, Reads c tokens d → _ := fun {d tokens} hReads =>
      ih (n := n) (b := b) hAt (hReads.inMemory hMemory)
    exact ((fold hPart Parser.push []).map List.reverse).map Value.list
  | many1 g ih =>
    intro n b root a c hAt hMemory
    have hPart : ∀ {d tokens}, Reads c tokens d → _ := fun {d tokens} hReads =>
      ih (n := n) (b := b) hAt (hReads.inMemory hMemory)
    exact ((fold1 hPart Parser.push []).map List.reverse).map Value.list
  | skipMany g ih =>
    intro n b root a c hAt hMemory
    have hPart : ∀ {d tokens}, Reads c tokens d → _ := fun {d tokens} hReads =>
      ih (n := n) (b := b) hAt (hReads.inMemory hMemory)
    exact (fold hPart (fun _ _ => ()) ()).map fun _ => Value.unit
  | skipMany1 g ih =>
    intro n b root a c hAt hMemory
    have hPart : ∀ {d tokens}, Reads c tokens d → _ := fun {d tokens} hReads =>
      ih (n := n) (b := b) hAt (hReads.inMemory hMemory)
    exact (fold1 hPart (fun _ _ => ()) ()).map fun _ => Value.unit
  | memo g ih =>
    intro n b root a c hAt hMemory
    exact memo (g := g) hAt hMemory fun m => ih (hAt.turn .inside fun _ => rfl) hMemory
  | fresh g ih => exact fun _ hMemory => (ih .fresh hMemory).inFreshScope
  | call x => exact fun _ hMemory => hCall x hMemory
  | tally name g ih => exact fun hAt hMemory => (ih hAt hMemory).tally name

/-! ## Names and programs -/

/-- The runs of names have accounts, by induction on the depth to which the observed runs
follow references. Each reference that is followed makes the plain run less deep. -/
theorem accounted_level (P : Program) (memory : Nat → List τ) (k : Nat) :
    ∀ {n root a} {c : C} x, InMemory memory c →
      Accounted P memory root n a c (P.observedLevel k x c) (P.plain.level n x c) := by
  induction k with
  | zero =>
    intro n root a c x _ st st' s s' events r r' _ hx _
    cases hx
  | succ k ih =>
    intro n root a c x hMemory
    cases n with
    | zero =>
      intro st st' s s' events r r' _ _ hy
      cases hy
    | succ n =>
      cases x with
      | rule name =>
        have hPlain := lookup_map Grammar.plain P.rules name
        unfold observedLevel level plain
        rcases hLookup : P.rules.lookup name with _ | g
        · intro st st' s s' events r r' _ hx _
          cases hx
        · rw [hPlain, hLookup]
          exact (((accounted_grammar ih g .fresh hMemory).inFreshScope).inFreshScope_plain).of_lt
            (b := .fresh) (Nat.lt_succ_self n)
      | shared name =>
        have hPlain := lookup_map Grammar.plain P.shared name
        unfold observedLevel level plain
        rcases hLookup : P.shared.lookup name with _ | g
        · intro st st' s s' events r r' _ hx _
          cases hx
        · rw [hPlain, hLookup]
          exact (accounted_grammar ih g (.named hLookup) hMemory).of_lt (Nat.lt_succ_self n)

/-- A run of a program has an account, beside the run of the plain grammar. -/
theorem accounted (P : Program) {root g : Grammar} {a : Address} {c : C}
    (hMemory : InMemory memory c) : Accounted P memory root (P.plain.depth c) a c
      (P.observed g c) (P.plain.parser g.plain c) :=
  have hPart := accounted_grammar (P.accounted_level memory _) g .fresh hMemory
  have hFresh : Accounted P memory root _ a c _ _ := hPart.inFreshScope
  hFresh.inFreshScope_plain

end Program

end

end Packrat

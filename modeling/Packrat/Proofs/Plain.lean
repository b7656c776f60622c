import Packrat.Proofs.Alike
import Packrat.Proofs.Tables

/-!
# Plain grammars

A grammar from which memoisation is taken away, and with it everything that is
built anew in place, no longer depends on the state of the run nor on the address
where it stands. Its results are facts about a cursor.

* `Grammar.plain`, `Program.plain`: nothing is stored, and fresh parts stand as
  they are;
* `Alignment.diagonal`: the sources of one kind beside themselves, where
  corresponding results are equal results;
* `Program.plain_level_mono`: a result is kept when references are followed
  deeper;
* `Program.Yields`: the result of a plain grammar, however deep references have to
  be followed for it, with `Yields.unique` and `Yields.outcome`.
-/

namespace Packrat

open Input List

/-! ## Taking memoisation away -/

/-- The same grammar with nothing stored and nothing built anew. -/
def Grammar.plain : Grammar → Grammar
  | pure v => .pure v
  | satisfy test => .satisfy test
  | skipIf test => .skipIf test
  | endOfInput => .endOfInput
  | take n => .take n
  | takeWhile test => .takeWhile test
  | takeWhile1 test => .takeWhile1 test
  | skipWhile test => .skipWhile test
  | literal s => .literal s
  | literalAnyCase s => .literalAnyCase s
  | map f g => .map f g.plain
  | convert name reason f g => .convert name reason f g.plain
  | both g h => .both g.plain h.plain
  | seqRight g h => .seqRight g.plain h.plain
  | seqLeft g h => .seqLeft g.plain h.plain
  | apply g h => .apply g.plain h.plain
  | bind g k => .bind g.plain fun v => (k v).plain
  | orElse g h => .orElse g.plain h.plain
  | label name g => .label name g.plain
  | lexeme name g => .lexeme name g.plain
  | optional g => .optional g.plain
  | option default g => .option default g.plain
  | marked default marker body => .marked default marker.plain body.plain
  | notFollowedBy g => .notFollowedBy g.plain
  | many g => .many g.plain
  | many1 g => .many1 g.plain
  | skipMany g => .skipMany g.plain
  | skipMany1 g => .skipMany1 g.plain
  | memo g => g.plain
  | fresh g => g.plain
  | call r => .call r
  | tally name g => .tally name g.plain

/-- Every grammar of a program made plain. -/
def Program.plain (P : Program) : Program where
  rules := P.rules.map fun x => (x.1, x.2.plain)
  shared := P.shared.map fun x => (x.1, x.2.plain)

/-- Grammars that are worked over are found under the same names. -/
theorem lookup_map (f : Grammar → Grammar) (l : List (String × Grammar)) (name : String) :
    (l.map fun x => (x.1, f x.2)).lookup name = (l.lookup name).map f := by
  induction l with
  | nil => rfl
  | cons x l ih =>
    rw [map_cons, lookup_cons, lookup_cons, ih]
    by_cases hName : name == x.1
    · rw [hName]
      rfl
    · rw [Bool.not_eq_true] at hName
      rw [hName]

theorem Grammar.Alike.plain {V : Value → Value → Prop} {stored stored' : Prop} {g g' : Grammar}
    (h : Alike V stored g g') : Alike V stored' g.plain g'.plain := by
  induction h with
  | pure hValue => exact .pure hValue
  | satisfy test => exact .satisfy test
  | skipIf test => exact .skipIf test
  | endOfInput => exact .endOfInput
  | take n => exact .take n
  | takeWhile test => exact .takeWhile test
  | takeWhile1 test => exact .takeWhile1 test
  | skipWhile test => exact .skipWhile test
  | literal text => exact .literal text
  | literalAnyCase text => exact .literalAnyCase text
  | map hValue _ ih => exact .map hValue ih
  | convert name reason hValue _ ih => exact .convert name reason hValue ih
  | both _ _ ihg ihh => exact .both ihg ihh
  | seqRight _ _ ihg ihh => exact .seqRight ihg ihh
  | seqLeft _ _ ihg ihh => exact .seqLeft ihg ihh
  | apply _ _ ihg ihh => exact .apply ihg ihh
  | bind _ _ ihg ihk => exact .bind ihg ihk
  | orElse _ _ ihg ihh => exact .orElse ihg ihh
  | label name _ ih => exact .label name ih
  | lexeme name _ ih => exact .lexeme name ih
  | optional _ ih => exact .optional ih
  | option hValue _ ih => exact .option hValue ih
  | marked hValue _ _ ihg ihh => exact .marked hValue ihg ihh
  | notFollowedBy _ ih => exact .notFollowedBy ih
  | many _ ih => exact .many ih
  | many1 _ ih => exact .many1 ih
  | skipMany _ ih => exact .skipMany ih
  | skipMany1 _ ih => exact .skipMany1 ih
  | memo _ _ ih => exact ih
  | fresh _ ih => exact ih
  | call r => exact .call r
  | tally name _ ih => exact .tally name ih
  | integer => exact .integer
  | number => exact .number

theorem Program.Alike.plain {V : Value → Value → Prop} {stored stored' : Prop} {P Q : Program}
    (h : P.Alike V stored Q) : P.plain.Alike V stored' Q.plain where
  rules := forall₂_map_left_iff.mpr (forall₂_map_right_iff.mpr
    (h.rules.imp fun _ _ hx => ⟨hx.1, hx.2.plain⟩))
  shared := forall₂_map_left_iff.mpr (forall₂_map_right_iff.mpr
    (h.shared.imp fun _ _ hx => ⟨hx.1, hx.2.plain⟩))

/-! ## One kind of sources beside itself -/

section

variable {C τ σ : Type} [Input C τ σ] [InputView C τ σ] [Token τ] [ToValue τ] [ToValue σ]

/-- Corresponding results at cursors that are equal if they correspond. -/
theorem Alignment.Outcome.eq_of_cursor {α : Type} {A : Alignment C C} {c d : C}
    {r r' : Result C α} (hCursor : ∀ {c d}, A.cursor c d → c = d)
    (hExpected : ∀ {k l}, A.expected k l → k = l) (h : A.Outcome Eq c d r r') : r = r' := by
  cases h with
  | ok hValue hReaches => rw [hValue, hCursor hReaches.cursor]
  | @error e f hFailure =>
    have hRemaining := hCursor hFailure.reaches.cursor
    have hPosition := hFailure.left_position
    have hPosition' := hFailure.right_position
    have hExpected' := hExpected hFailure.expected
    have hReason := hFailure.reason
    cases e
    cases f
    simp_all

variable [LawfulInput C]

/-- The sources of one kind beside themselves. -/
def Alignment.diagonal (C : Type) {τ σ : Type} [Input C τ σ] [InputView C τ σ] [Token τ]
    [ToValue τ] [ToValue σ] [LawfulInput C] : Alignment C C where
  cursor := Eq
  token := Eq
  value := Eq
  expected := Eq
  after := by rintro c _ rfl; exact forall₂_refl _
  reads := by rintro c c' _ d' s t rfl hs ht hLength; exact hs.eq_of_length_eq ht hLength
  toChar := by rintro x _ rfl; rfl
  toValue := by rintro x _ rfl; rfl
  slice h := by rw [forall₂_eq_eq_eq] at h; rw [h]
  congruence := .eq
  labels := .eq

/-- Corresponding results of one kind of sources are equal. -/
theorem Alignment.Outcome.eq {α : Type} {c d : C} {r r' : Result C α}
    (h : (Alignment.diagonal C).Outcome Eq c d r r') : r = r' :=
  h.eq_of_cursor id id

end

/-! ## No state -/

section

variable {C D τ σ υ ρ α β : Type}
  [Input C τ σ] [InputView C τ σ] [Token τ] [ToValue τ] [ToValue σ]
  [Input D υ ρ] [InputView D υ ρ] [Token υ] [ToValue υ] [ToValue ρ]

/-- Runs from a cursor, whatever the states are. -/
def Coupling.free (A : Alignment C D) (start : C) : Coupling A where
  within c := ∃ tokens, Reads start tokens c
  state _ _ := True
  record _ _ := True
  within_reads := @Reads.exists_trans _ _ _ _ _ start
  note _ _ := trivial
  tally _ _ := trivial
  backtracked _ _ _ := trivial
  stalled _ _ := trivial

theorem Coupling.free_inFreshScope {A : Alignment C D} {start : C} {V : α → β → Prop}
    {p : Parser C α} {q : Parser D β} (h : (free A start).Simulates V p q) :
    (free A start).Simulates V (.inFreshScope p) (.inFreshScope q) := by
  intro c d st st' hWithin hCursor _ r s hRun
  have hState : (free A start).state { st with current := ∅ } { st' with current := ∅ } := trivial
  obtain ⟨s₁, hp, -⟩ := Parser.inFreshScope_eq_some_iff.mp hRun
  obtain ⟨r', s', hq, hOut, -⟩ := h hWithin hCursor hState hp
  exact ⟨r', _, Parser.inFreshScope_eq_some_iff.mpr ⟨s', hq, rfl⟩, hOut, trivial⟩

end

/-! ## Plain grammars -/

section

variable {C τ σ : Type} [Input C τ σ] [InputView C τ σ] [Token τ] [ToValue τ] [ToValue σ]
  [LawfulInput C] {P : Program} {g : Grammar} {c start : C} {m n : Nat} {r r' : Result C Value}

open Coupling

/-- In whatever states two runs start, they give one result, which is reached by
reading. -/
theorem Coupling.free_run {p q : Parser C Value} {tokens : List τ} {st s : State C}
    (h : (free (.diagonal C) start).Simulates Eq p q) (hReads : Reads start tokens c)
    (hRun : p c st = some (r, s)) (st' : State C) :
    ∃ s', q c st' = some (r, s') ∧ (Alignment.diagonal C).Outcome Eq c c r r := by
  have hState : (free (.diagonal C) start).state st st' := trivial
  obtain ⟨r', s', hRun', hOut, -⟩ := h ⟨tokens, hReads⟩ rfl hState hRun
  obtain rfl := hOut.eq
  exact ⟨s', hRun', hOut⟩

variable [LawfulToken τ]

/-- A plain grammar gives one result in all states and at all addresses. -/
theorem Grammar.plain_simulates (g : Grammar) {call call' : Reference → Parser C Value}
    (hCall : ∀ r, (free (.diagonal C) start).Simulates Eq (call r) (call' r)) (a b : Address) :
    (free (.diagonal C) start).Simulates Eq (g.plain.parser call a) (g.plain.parser call' b) :=
  g.alike_self.plain.simulates hCall False.elim free_inFreshScope a b False.elim

namespace Program

theorem plain_level_succ (P : Program)
    (hCall : ∀ r, (free (.diagonal C) start).Simulates Eq (P.plain.level m r) (P.plain.level n r))
    (r : Reference) :
    (free (.diagonal C) start).Simulates Eq (P.plain.level (m + 1) r) (P.plain.level (n + 1) r) :=
  P.alike_self.plain.simulates_succ False.elim free_inFreshScope hCall r

/-- What a name gives is kept when references are followed deeper. -/
theorem plain_level_mono (P : Program) (hLe : m ≤ n) (r : Reference) :
    (free (.diagonal C) start).Simulates Eq (P.plain.level m r) (P.plain.level n r) := by
  induction m generalizing n r with
  | zero => exact .silent
  | succ m ih =>
    obtain ⟨n, rfl⟩ := Nat.exists_eq_add_one_of_ne_zero (Nat.ne_zero_of_lt hLe)
    exact P.plain_level_succ (ih (Nat.le_of_succ_le_succ hLe)) r

/-- The result of a plain grammar at a cursor, if references are followed deeply
enough. -/
def Yields (P : Program) (g : Grammar) (c : C) (r : Result C Value) : Prop :=
  ∃ n s, g.plain.parser (P.plain.level n) .fresh c {} = some (r, s)

/-- Two runs of a plain grammar from one cursor, the second one following
references at least as deeply. -/
theorem plain_run_mono (hLe : m ≤ n) {a b : Address} {st s : State C}
    (hRun : g.plain.parser (P.plain.level m) a c st = some (r, s)) (st' : State C) :
    ∃ s', g.plain.parser (P.plain.level n) b c st' = some (r, s') := by
  obtain ⟨s', hRun', -⟩ :=
    free_run (g.plain_simulates (P.plain_level_mono hLe) a b) (.refl c) hRun st'
  exact ⟨s', hRun'⟩

theorem yields_of_run {a : Address} {st s : State C}
    (hRun : g.plain.parser (P.plain.level n) a c st = some (r, s)) : P.Yields g c r := by
  obtain ⟨s', hRun'⟩ := plain_run_mono (Nat.le_refl n) (b := .fresh) hRun {}
  exact ⟨n, s', hRun'⟩

theorem Yields.unique (h : P.Yields g c r) (h' : P.Yields g c r') : r = r' := by
  obtain ⟨m, s, hRun⟩ := h
  obtain ⟨n, s', hRun'⟩ := h'
  obtain ⟨t, hDeep⟩ := plain_run_mono (Nat.le_max_left m n) (b := .fresh) hRun {}
  obtain ⟨t', hDeep'⟩ := plain_run_mono (Nat.le_max_right m n) (b := .fresh) hRun' {}
  rw [hDeep] at hDeep'
  cases hDeep'
  rfl

/-- What a plain grammar yields is a value with a cursor that is reached by reading,
or a failure at such a cursor. -/
theorem Yields.outcome (h : P.Yields g c r) : (Alignment.diagonal C).Outcome Eq c c r r := by
  obtain ⟨n, s, hRun⟩ := h
  obtain ⟨s', -, hOut⟩ := free_run
    (g.plain_simulates (P.plain_level_mono (Nat.le_refl n)) .fresh .fresh) (.refl c) hRun {}
  exact hOut

/-- A value comes with a cursor that is reached by reading. -/
theorem Yields.reads {v : Value} {d : C} (h : P.Yields g c (.ok (v, d))) :
    ∃ tokens, Reads c tokens d := by
  cases h.outcome with
  | ok _ hReaches => exact hReaches.left

end Program

end

end Packrat

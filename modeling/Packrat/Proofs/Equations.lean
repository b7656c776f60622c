import Mathlib.Data.Nat.Find
import Packrat.Proofs.Depth
import Packrat.Proofs.Meaning

/-!
# Equations of plain grammars

What a plain grammar yields where references are followed to a depth, in terms of what
its parts yield to the same depth. A reference uses up one, unless it is followed as
deeply as a run needs it.

* `Program.find?`: the grammar of a name;
* `Program.YieldsAt`: what a plain grammar yields to a depth, with
  `Program.means`: it is the meaning of the grammar's parser;
* `yieldsAt_both_iff`, `yieldsAt_orElse_iff` and the like: one equation for every way to
  build a grammar;
* `yieldsAt_call_iff`, `yieldsAt_call_iff_of_deep`: the equations of a name.
-/

namespace Packrat

open Input

/-- The grammar of a name. -/
def Program.find? (P : Program) : Reference → Option Grammar
  | .rule name => P.rules.lookup name
  | .shared name => P.shared.lookup name

namespace Program

section

variable {C τ σ : Type} [Input C τ σ] [Token τ] [ToValue τ] [ToValue σ]

/-- What a plain grammar yields where references are followed to a depth. -/
def YieldsAt (P : Program) (n : Nat) (g : Grammar) (c : C) (r : Result C Value) : Prop :=
  Run.Gives (g.plain.parser (P.plain.level n) .fresh c) r

variable [InputView C τ σ] [LawfulInput C] [LawfulToken τ] {P : Program} {g h : Grammar}
  {c d start : C} {m n : Nat} {r : Result C Value} {v : Value}

/-- A plain grammar means what it yields, wherever it stands. -/
theorem means (P : Program) (n : Nat) (g : Grammar) (a : Address) :
    (g.plain.parser (C := C) (P.plain.level n) a).Means (P.YieldsAt n g) where
  gives := by
    intro c r
    constructor
    · rintro ⟨st, s, hRun⟩
      obtain ⟨s', hRun'⟩ := plain_run_mono (Nat.le_refl n) hRun {}
      exact ⟨{}, s', hRun'⟩
    · rintro ⟨st, s, hRun⟩
      obtain ⟨s', hRun'⟩ := plain_run_mono (Nat.le_refl n) hRun {}
      exact ⟨{}, s', hRun'⟩
  steady c := by
    rintro r ⟨st₀, s₀, hRun⟩ st
    exact plain_run_mono (Nat.le_refl n) hRun st

theorem yields_iff : P.Yields g c r ↔ ∃ n, P.YieldsAt n g c r := by
  constructor
  · rintro ⟨n, s, hRun⟩
    exact ⟨n, {}, s, hRun⟩
  · rintro ⟨n, st, s, hRun⟩
    exact yields_of_run hRun

theorem YieldsAt.yields (h : P.YieldsAt n g c r) : P.Yields g c r :=
  yields_iff.mpr ⟨n, h⟩

/-- A result, and what is left of the source, are found by reading on. -/
theorem YieldsAt.reaches (h : P.YieldsAt n g c r) : r.From c := by
  cases h.yields.outcome with
  | ok _ hReaches => exact hReaches.left
  | error _ => trivial

theorem YieldsAt.reads (h : P.YieldsAt n g c (.ok (v, d))) : ∃ tokens, Reads c tokens d :=
  h.reaches

/-- There is a least depth to which references have to be followed for a result. -/
theorem YieldsAt.exists_least (h : P.YieldsAt n g c r) :
    ∃ m ≤ n, P.YieldsAt m g c r ∧ ∀ k < m, ∀ r, ¬P.YieldsAt k g c r := by
  classical
  have hSome : ∃ k, ∃ r, P.YieldsAt k g c r := ⟨n, r, h⟩
  obtain ⟨r', h'⟩ := Nat.find_spec hSome
  obtain rfl := h'.yields.unique h.yields
  exact ⟨Nat.find hSome, Nat.find_le ⟨_, h⟩, h',
    fun k hLt r hYields => Nat.find_min hSome hLt ⟨r, hYields⟩⟩

/-- As deeply as a run needs it, a plain grammar yields all that it ever yields. -/
theorem yieldsAt_iff_yields {tokens : List τ} (hReads : Reads start tokens c)
    (hDeep : P.names.length * (left start + 1) ≤ n) : P.YieldsAt n g c r ↔ P.Yields g c r := by
  constructor
  · exact YieldsAt.yields
  · intro hYields
    obtain ⟨s, hRun⟩ := hYields.run hReads hDeep .fresh {}
    exact ⟨{}, s, hRun⟩

/-! ## One part -/

theorem yieldsAt_map_iff {f : Value → Value} :
    P.YieldsAt n (.map f g) c r ↔ ∃ r₁, P.YieldsAt n g c r₁ ∧ r = r₁.map f :=
  ((P.means n g .fresh).map f).gives

theorem yieldsAt_convert_iff {name : String} {reason : Reason} {f : Value → Option Value} :
    P.YieldsAt n (.convert name reason f g) c r ↔ ∃ r₁, P.YieldsAt n g c r₁ ∧
      r = r₁.cases .error
        fun v d => .ofOption ((ParseError.new c reason).expecting name) d (f v) :=
  ((P.means n g .fresh).onResult fun _ => Parser.convert_eq name reason f _).gives

theorem yieldsAt_label_iff {name : String} : P.YieldsAt n (.label name g) c r ↔
    ∃ r₁, P.YieldsAt n g c r₁ ∧ r = r₁.mapError (·.expecting name) :=
  ((P.means n g .fresh).onResult fun _ => Parser.label_eq name _).gives

theorem yieldsAt_lexeme_iff {name : String} : P.YieldsAt n (.lexeme name g) c r ↔
    ∃ r₁, P.YieldsAt n g c r₁ ∧ r = r₁.mapError fun e => (e.moveTo c).expecting name :=
  ((P.means n g .fresh).onResult fun _ => Parser.lexeme_eq name _).gives

theorem yieldsAt_optional_iff : P.YieldsAt n (.optional g) c r ↔ ∃ r₁, P.YieldsAt n g c r₁ ∧
    r = r₁.cases (fun _ => .ok (.none, c)) fun v d => .ok (.some v, d) :=
  ((P.means n g .fresh).onResult fun _ => Parser.map_optional_eq _ _).gives

theorem yieldsAt_option_iff {default : Value} : P.YieldsAt n (.option default g) c r ↔
    ∃ r₁, P.YieldsAt n g c r₁ ∧
      r = r₁.cases (fun _ => .ok (default, c)) fun v d => .ok (v, d) :=
  ((P.means n g .fresh).onResult fun _ => Parser.option_eq default _).gives

theorem yieldsAt_notFollowedBy_iff : P.YieldsAt n (.notFollowedBy g) c r ↔
    ∃ r₁, P.YieldsAt n g c r₁ ∧
      r = r₁.cases (fun _ => .ok (.unit, c)) fun _ _ => .error (.new c .unwantedMatch) :=
  ((P.means n g .fresh).onResult fun _ => Parser.replace_notFollowedBy_eq _ _).gives

theorem yieldsAt_tally_iff {name : String} :
    P.YieldsAt n (.tally name g) c r ↔ P.YieldsAt n g c r :=
  ((P.means n g .fresh).tally name).gives

/-! ## Two parts -/

theorem yieldsAt_both_iff : P.YieldsAt n (.both g h) c r ↔ ∃ r₁, P.YieldsAt n g c r₁ ∧
    r₁.Leads (fun v d r => ∃ r₂, P.YieldsAt n h d r₂ ∧ r = r₂.map (.pair v)) r :=
  ((P.means n g _).both (P.means n h _) Value.pair).gives

theorem yieldsAt_seqRight_iff : P.YieldsAt n (.seqRight g h) c r ↔
    ∃ r₁, P.YieldsAt n g c r₁ ∧ r₁.Leads (fun _ d r => P.YieldsAt n h d r) r := by
  refine ((P.means n g _).both (P.means n h _) fun _ w => w).gives.trans ?_
  simp only [Result.map_id', exists_eq_right']

theorem yieldsAt_seqLeft_iff : P.YieldsAt n (.seqLeft g h) c r ↔ ∃ r₁, P.YieldsAt n g c r₁ ∧
    r₁.Leads (fun v d r => ∃ r₂, P.YieldsAt n h d r₂ ∧ r = r₂.map fun _ => v) r :=
  ((P.means n g _).both (P.means n h _) fun v _ => v).gives

theorem yieldsAt_apply_iff : P.YieldsAt n (.apply g h) c r ↔ ∃ r₁, P.YieldsAt n g c r₁ ∧
    r₁.Leads (fun v d r => ∃ r₂, P.YieldsAt n h d r₂ ∧ r = r₂.map v.call) r := by
  have hBoth := (P.means (C := C) n g (.turn .fresh .left)).both
    (P.means n h (.turn .fresh .right)) Value.call
  rw [← Parser.apply_map_eq] at hBoth
  exact hBoth.gives

theorem yieldsAt_bind_iff {k : Value → Grammar} : P.YieldsAt n (.bind g k) c r ↔
    ∃ r₁, P.YieldsAt n g c r₁ ∧ r₁.Leads (fun v d r => P.YieldsAt n (k v) d r) r :=
  ((P.means n g _).bind fun v => (P.means n (k v) _).inFreshScope).gives

theorem yieldsAt_orElse_iff : P.YieldsAt n (.orElse g h) c r ↔ ∃ r₁, P.YieldsAt n g c r₁ ∧
    r₁.cases (fun e => ∃ r₂, P.YieldsAt n h c r₂ ∧ r = r₂.mapError (e.merge · c))
      fun v d => r = .ok (v, d) :=
  ((P.means n g _).orElse (P.means n h _)).gives

theorem yieldsAt_marked_iff {default : Value} : P.YieldsAt n (.marked default g h) c r ↔
    ∃ r₁, P.YieldsAt n g c r₁ ∧
      r₁.cases (fun _ => r = .ok (default, c)) fun _ d => P.YieldsAt n h d r :=
  ((P.means n g _).marked (P.means n h _) default).gives

/-! ## Repetition -/

theorem yieldsAt_many_iff : P.YieldsAt n (.many g) c r ↔
    ∃ rs, Rounds (P.YieldsAt n g) c rs ∧ r = rs.map .list :=
  (((P.means n g .fresh).many YieldsAt.reads).map _).gives

theorem yieldsAt_many1_iff : P.YieldsAt n (.many1 g) c r ↔
    ∃ rs, Rounds1 (P.YieldsAt n g) c rs ∧ r = rs.map .list :=
  (((P.means n g .fresh).many1 YieldsAt.reads).map _).gives

theorem yieldsAt_skipMany_iff : P.YieldsAt n (.skipMany g) c r ↔
    ∃ rs, Rounds (P.YieldsAt n g) c rs ∧ r = rs.map fun _ => .unit :=
  (((P.means n g .fresh).skipMany YieldsAt.reads).map_map).gives

theorem yieldsAt_skipMany1_iff : P.YieldsAt n (.skipMany1 g) c r ↔
    ∃ rs, Rounds1 (P.YieldsAt n g) c rs ∧ r = rs.map fun _ => .unit :=
  (((P.means n g .fresh).skipMany1 YieldsAt.reads).map_map).gives

/-! ## Names -/

omit [InputView C τ σ] [LawfulInput C] [LawfulToken τ] in
theorem not_yieldsAt_zero {x : Reference} : ¬P.YieldsAt 0 (.call x) c r := by
  rintro ⟨st, s, hRun⟩
  cases hRun

/-- A name yields what its grammar yields one reference less deeply. -/
theorem yieldsAt_call_iff {x : Reference} : P.YieldsAt (n + 1) (.call x) c r ↔
    ∃ g, P.find? x = some g ∧ P.YieldsAt n g c r := by
  have hSilent : ¬Run.Gives (Parser.silent c) r := by
    rintro ⟨st, s, hRun⟩
    cases hRun
  change Run.Gives (P.plain.level (n + 1) x c) r ↔ _
  cases x with
  | rule name =>
    have hLookup : P.plain.rules.lookup name = (P.rules.lookup name).map Grammar.plain :=
      lookup_map Grammar.plain P.rules name
    unfold level find?
    rw [hLookup]
    rcases hName : P.rules.lookup name with _ | g
    · simp [hName, hSilent]
    · simpa [hName] using (P.means n g .fresh).inFreshScope.gives
  | shared name =>
    have hLookup : P.plain.shared.lookup name = (P.shared.lookup name).map Grammar.plain :=
      lookup_map Grammar.plain P.shared name
    unfold level find?
    rw [hLookup]
    rcases hName : P.shared.lookup name with _ | g
    · simp [hName, hSilent]
    · simpa [hName] using (P.means n g (.named name)).gives

/-- A name yields what its grammar yields, where references are followed as deeply as a
run needs it. -/
theorem yieldsAt_call_iff_of_deep {x : Reference} {tokens : List τ}
    (hReads : Reads start tokens c) (hDeep : P.names.length * (left start + 1) ≤ n) :
    P.YieldsAt n (.call x) c r ↔ ∃ g, P.find? x = some g ∧ P.YieldsAt n g c r := by
  rw [yieldsAt_iff_yields hReads hDeep,
    ← yieldsAt_iff_yields hReads (Nat.le_succ_of_le hDeep), yieldsAt_call_iff]

end

end Program

end Packrat

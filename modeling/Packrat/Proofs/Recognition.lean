import Packrat.Proofs.Primitive
import Packrat.Proofs.Sessions

/-!
# Runs and parsing expressions

Runs of sessions give what parsing expressions derive from the unread tokens, and all
that they derive. Errors, positions, stored results and the record make no difference.

* `Program.YieldsAt.derives`: what a plain grammar yields is derived, by induction on
  the depth of references and on the grammar;
* `Peg.Derives.matches`: what is derived is yielded, by induction on the derivation;
* `Session.Reachable.parsing_expressions`: the two together, for runs.
-/

namespace Packrat

open Input List

variable {C τ σ : Type} [InputView C τ σ] [Input C τ σ] [Token τ] [ToValue τ] [ToValue σ]
  [LawfulInput C] {c d : C} {r : Result C Value} {v : Value}

variable [LawfulToken τ] {P : Program} {g : Grammar} {start : C} {m n : Nat}

/-! ## From runs to derivations -/

namespace Program

omit [LawfulToken τ] in
theorem YieldsAt.derives_primitive {f : List τ → Peg.Outcome τ} (h : P.YieldsAt n g c r)
    (hPrimitive : Peg.primitive? (sliceValue C) g = some f) :
    Peg.Derives P (sliceValue C) g (after c) r.outcome := by
  obtain ⟨r₀, hOutcome, hIff⟩ := P.exists_yieldsAt_primitive n hPrimitive c
  rw [(hIff r).mp h, hOutcome]
  exact .primitive hPrimitive

/-- What has been read shows in the unread tokens. -/
theorem YieldsAt.position_lt_iff (h : P.YieldsAt n g c (.ok (v, d))) :
    position c < position d ↔ after d ≠ after c := by
  obtain ⟨tokens, hReads⟩ := h.reads
  exact hReads.position_lt_iff_after_ne

theorem YieldsAt.after_eq_of_not_lt (h : P.YieldsAt n g c (.ok (v, d)))
    (hLe : ¬position c < position d) : after d = after c :=
  not_not.mp (h.position_lt_iff.not.mp hLe)

/-- The rounds of a repetition, by induction on them. -/
theorem derives_rounds {rs : Result C (List Value)}
    (hg : ∀ {c : C} {r}, P.YieldsAt n g c r → Peg.Derives P (sliceValue C) g (after c) r.outcome)
    (h : Rounds (P.YieldsAt n g) c rs) :
    Peg.Derives P (sliceValue C) (.many g) (after c) (rs.map .list).outcome := by
  induction h with
  | stop hStop => exact .many_stop (hg hStop)
  | @stall c v d hStall hLe =>
    have hFirst : Peg.Derives P (sliceValue C) g (after c) (.success v (after d)) := hg hStall
    rw [hStall.after_eq_of_not_lt hLe] at hFirst
    exact .many_stall hFirst
  | @more c v d rs hRound hLt _ ih =>
    have hMoved := hRound.position_lt_iff.mp hLt
    rcases rs with e | ⟨vs, d'⟩
    · exact .many_failure (hg hRound) hMoved ih
    · exact .many_more (hg hRound) hMoved ih

/-- The same where the first round must succeed. -/
theorem derives_rounds1 {rs : Result C (List Value)}
    (hg : ∀ {c : C} {r}, P.YieldsAt n g c r → Peg.Derives P (sliceValue C) g (after c) r.outcome)
    (h : Rounds1 (P.YieldsAt n g) c rs) :
    Peg.Derives P (sliceValue C) (.many1 g) (after c) (rs.map .list).outcome := by
  cases h with
  | none hNone => exact .many1_none (hg hNone)
  | @stall v d hStall hLe =>
    have hFirst : Peg.Derives P (sliceValue C) g (after c) (.success v (after d)) := hg hStall
    rw [hStall.after_eq_of_not_lt hLe] at hFirst
    exact .many1_stall hFirst
  | @more v d rs hRound hLt hMore =>
    have hMoved := hRound.position_lt_iff.mp hLt
    have hMany := derives_rounds hg hMore
    rcases rs with e | ⟨vs, d'⟩
    · exact .many1_failure (hg hRound) hMoved hMany
    · exact .many1_more (hg hRound) hMoved hMany

/-- What a grammar yields is derived if what names yield is, by induction on the
grammar. -/
theorem derives_of_call (hCall : ∀ {x} {c : C} {r}, P.YieldsAt n (.call x) c r →
      Peg.Derives P (sliceValue C) (.call x) (after c) r.outcome) (g : Grammar) :
    ∀ {c : C} {r}, P.YieldsAt n g c r → Peg.Derives P (sliceValue C) g (after c) r.outcome := by
  induction g with
  | pure | satisfy | skipIf | endOfInput | take | takeWhile | takeWhile1 | skipWhile | literal
  | literalAnyCase => exact fun h => h.derives_primitive rfl
  | map f g ih =>
    intro c r h
    obtain ⟨r₁, hg, rfl⟩ := yieldsAt_map_iff.mp h
    rw [Result.outcome_map]
    exact .map (ih hg)
  | convert name reason f g ih =>
    intro c r h
    obtain ⟨e | ⟨v, d⟩, hg, rfl⟩ := yieldsAt_convert_iff.mp h
    · exact .convert_failure (ih hg)
    · rw [Result.cases_ok]
      rcases hValue : f v with _ | w
      · exact .convert_refused (ih hg) hValue
      · exact .convert (ih hg) hValue
  | both g h ihg ihh =>
    intro c r h
    obtain ⟨e | ⟨v, d⟩, hg, hNext⟩ := yieldsAt_both_iff.mp h
    · obtain rfl := hNext
      exact .both_failure (ihg hg)
    · obtain ⟨r₂, hh, rfl⟩ := hNext
      rw [Result.outcome_map]
      exact .both (ihg hg) (ihh hh)
  | seqRight g h ihg ihh =>
    intro c r h
    obtain ⟨e | ⟨v, d⟩, hg, hNext⟩ := yieldsAt_seqRight_iff.mp h
    · obtain rfl := hNext
      exact .seqRight_failure (ihg hg)
    · exact .seqRight (ihg hg) (ihh hNext)
  | seqLeft g h ihg ihh =>
    intro c r h
    obtain ⟨e | ⟨v, d⟩, hg, hNext⟩ := yieldsAt_seqLeft_iff.mp h
    · obtain rfl := hNext
      exact .seqLeft_failure (ihg hg)
    · obtain ⟨r₂, hh, rfl⟩ := hNext
      rw [Result.outcome_map]
      exact .seqLeft (ihg hg) (ihh hh)
  | apply g h ihg ihh =>
    intro c r h
    obtain ⟨e | ⟨v, d⟩, hg, hNext⟩ := yieldsAt_apply_iff.mp h
    · obtain rfl := hNext
      exact .apply_failure (ihg hg)
    · obtain ⟨r₂, hh, rfl⟩ := hNext
      rw [Result.outcome_map]
      exact .apply (ihg hg) (ihh hh)
  | bind g k ihg ihk =>
    intro c r h
    obtain ⟨e | ⟨v, d⟩, hg, hNext⟩ := yieldsAt_bind_iff.mp h
    · obtain rfl := hNext
      exact .bind_failure (ihg hg)
    · exact .bind (ihg hg) (ihk v hNext)
  | orElse g h ihg ihh =>
    intro c r h
    obtain ⟨e | ⟨v, d⟩, hg, hNext⟩ := yieldsAt_orElse_iff.mp h
    · obtain ⟨r₂, hh, rfl⟩ := hNext
      rw [Result.outcome_mapError]
      exact .orElse_second (ihg hg) (ihh hh)
    · obtain rfl := hNext
      exact .orElse_first (ihg hg)
  | label name g ih =>
    intro c r h
    obtain ⟨r₁, hg, rfl⟩ := yieldsAt_label_iff.mp h
    rw [Result.outcome_mapError]
    exact .label (ih hg)
  | lexeme name g ih =>
    intro c r h
    obtain ⟨r₁, hg, rfl⟩ := yieldsAt_lexeme_iff.mp h
    rw [Result.outcome_mapError]
    exact .lexeme (ih hg)
  | optional g ih =>
    intro c r h
    obtain ⟨e | ⟨v, d⟩, hg, rfl⟩ := yieldsAt_optional_iff.mp h
    · exact .optional_absent (ih hg)
    · exact .optional (ih hg)
  | option default g ih =>
    intro c r h
    obtain ⟨e | ⟨v, d⟩, hg, rfl⟩ := yieldsAt_option_iff.mp h
    · exact .option_absent (ih hg)
    · exact .option (ih hg)
  | marked default g h ihg ihh =>
    intro c r h
    obtain ⟨e | ⟨v, d⟩, hg, hNext⟩ := yieldsAt_marked_iff.mp h
    · obtain rfl := hNext
      exact .marked_absent (ihg hg)
    · exact .marked (ihg hg) (ihh hNext)
  | notFollowedBy g ih =>
    intro c r h
    obtain ⟨e | ⟨v, d⟩, hg, rfl⟩ := yieldsAt_notFollowedBy_iff.mp h
    · exact .notFollowedBy (ih hg)
    · exact .notFollowedBy_failure (ih hg)
  | many g ih =>
    intro c r h
    obtain ⟨rs, hRounds, rfl⟩ := yieldsAt_many_iff.mp h
    exact derives_rounds ih hRounds
  | many1 g ih =>
    intro c r h
    obtain ⟨rs, hRounds, rfl⟩ := yieldsAt_many1_iff.mp h
    exact derives_rounds1 ih hRounds
  | skipMany g ih =>
    intro c r h
    obtain ⟨rs, hRounds, rfl⟩ := yieldsAt_skipMany_iff.mp h
    have hMany := Peg.Derives.skipMany (derives_rounds ih hRounds)
    rwa [← Result.outcome_map, Result.map_map] at hMany
  | skipMany1 g ih =>
    intro c r h
    obtain ⟨rs, hRounds, rfl⟩ := yieldsAt_skipMany1_iff.mp h
    have hMany := Peg.Derives.skipMany1 (derives_rounds1 ih hRounds)
    rwa [← Result.outcome_map, Result.map_map] at hMany
  | memo g ih => exact fun h => .memo (ih h)
  | fresh g ih => exact fun h => .fresh (ih h)
  | call x => exact hCall
  | tally name g ih => exact fun h => .tally (ih (yieldsAt_tally_iff.mp h))

/-- What a plain grammar yields is derived, by induction on the depth of references. -/
theorem YieldsAt.derives : ∀ {n g} {c : C} {r}, P.YieldsAt n g c r →
    Peg.Derives P (sliceValue C) g (after c) r.outcome := by
  intro n
  induction n with
  | zero => exact fun {g} => derives_of_call (fun h => absurd h not_yieldsAt_zero) g
  | succ n ih =>
    refine fun {g} => derives_of_call (fun h => ?_) g
    obtain ⟨g, hName, hg⟩ := yieldsAt_call_iff.mp h
    exact .call hName (ih hg)

/-! ## From derivations to runs -/

/-- A plain grammar yields a result with an outcome. -/
def Matches (P : Program) (n : Nat) (g : Grammar) (c : C) (o : Peg.Outcome τ) : Prop :=
  ∃ r, P.YieldsAt n g c r ∧ r.outcome = o

namespace Matches

variable {o : Peg.Outcome τ} {y : List τ} {vs : List Value}

/-- A success leads to a cursor that is reached from the start too. -/
theorem success (h : P.Matches n g c (.success v y)) (hWithin : ∃ tokens, Reads start tokens c) :
    ∃ d, P.YieldsAt n g c (.ok (v, d)) ∧ (∃ tokens, Reads start tokens d) ∧ after d = y := by
  obtain ⟨r, hYields, hOutcome⟩ := h
  obtain ⟨d, rfl, hAfter⟩ := Result.outcome_eq_success_iff.mp hOutcome
  obtain ⟨tokens, hReads⟩ := hYields.reads
  exact ⟨d, hYields, Reads.exists_trans hWithin hReads, hAfter⟩

omit [LawfulInput C] [LawfulToken τ] in
theorem failure (h : P.Matches n g c .failure) : ∃ e, P.YieldsAt n g c (.error e) := by
  obtain ⟨r, hYields, hOutcome⟩ := h
  obtain ⟨e, rfl⟩ := Result.outcome_eq_failure_iff.mp hOutcome
  exact ⟨e, hYields⟩

/-- The rounds of a repetition that succeeds. -/
theorem rounds (h : P.Matches n (.many g) c (.success (.list vs) y)) :
    ∃ d, Rounds (P.YieldsAt n g) c (.ok (vs, d)) ∧ after d = y := by
  obtain ⟨r, hYields, hOutcome⟩ := h
  obtain ⟨rs, hRounds, rfl⟩ := yieldsAt_many_iff.mp hYields
  rcases rs with e | ⟨ws, d⟩
  · cases hOutcome
  · cases hOutcome
    exact ⟨d, hRounds, rfl⟩

/-- The rounds of a repetition that fails. -/
theorem rounds_failure (h : P.Matches n (.many g) c .failure) :
    ∃ e, Rounds (P.YieldsAt n g) c (.error e) := by
  obtain ⟨r, hYields, hOutcome⟩ := h
  obtain ⟨rs, hRounds, rfl⟩ := yieldsAt_many_iff.mp hYields
  rcases rs with e | ⟨ws, d⟩
  · exact ⟨e, hRounds⟩
  · cases hOutcome

end Matches

end Program

open Program

/-- What is derived from the unread tokens is yielded, where references are followed as
deeply as a run needs it. By induction on the derivation. -/
theorem Peg.Derives.matches {s : List τ} {o : Peg.Outcome τ}
    (h : Peg.Derives P (sliceValue C) g s o)
    (hDeep : P.names.length * (left start + 1) ≤ n) :
    ∀ {c : C}, (∃ tokens, Reads start tokens c) → after c = s → P.Matches n g c o := by
  induction h with
  | primitive hPrimitive =>
    rintro c - rfl
    obtain ⟨r₀, hOutcome, hIff⟩ := P.exists_yieldsAt_primitive n hPrimitive c
    exact ⟨r₀, (hIff r₀).mpr rfl, hOutcome⟩
  | map _ ih =>
    intro c hc hAfter
    obtain ⟨r₁, hg, rfl⟩ := ih hc hAfter
    exact ⟨_, yieldsAt_map_iff.mpr ⟨r₁, hg, rfl⟩, Result.outcome_map _⟩
  | convert _ hValue ih =>
    intro c hc hAfter
    obtain ⟨d, hg, -, rfl⟩ := (ih hc hAfter).success hc
    exact ⟨_, yieldsAt_convert_iff.mpr ⟨_, hg, rfl⟩, by rw [Result.cases_ok, hValue]; rfl⟩
  | convert_refused _ hValue ih =>
    intro c hc hAfter
    obtain ⟨d, hg, -, rfl⟩ := (ih hc hAfter).success hc
    exact ⟨_, yieldsAt_convert_iff.mpr ⟨_, hg, rfl⟩, by rw [Result.cases_ok, hValue]; rfl⟩
  | convert_failure _ ih =>
    intro c hc hAfter
    obtain ⟨e, hg⟩ := (ih hc hAfter).failure
    exact ⟨_, yieldsAt_convert_iff.mpr ⟨_, hg, rfl⟩, rfl⟩
  | both _ _ ihg ihh =>
    intro c hc hAfter
    obtain ⟨d, hg, hd, hRest⟩ := (ihg hc hAfter).success hc
    obtain ⟨r₂, hh, rfl⟩ := ihh hd hRest
    exact ⟨_, yieldsAt_both_iff.mpr ⟨_, hg, r₂, hh, rfl⟩, Result.outcome_map _⟩
  | both_failure _ ih =>
    intro c hc hAfter
    obtain ⟨e, hg⟩ := (ih hc hAfter).failure
    exact ⟨_, yieldsAt_both_iff.mpr ⟨_, hg, rfl⟩, rfl⟩
  | seqRight _ _ ihg ihh =>
    intro c hc hAfter
    obtain ⟨d, hg, hd, hRest⟩ := (ihg hc hAfter).success hc
    obtain ⟨r₂, hh, rfl⟩ := ihh hd hRest
    exact ⟨_, yieldsAt_seqRight_iff.mpr ⟨_, hg, hh⟩, rfl⟩
  | seqRight_failure _ ih =>
    intro c hc hAfter
    obtain ⟨e, hg⟩ := (ih hc hAfter).failure
    exact ⟨_, yieldsAt_seqRight_iff.mpr ⟨_, hg, rfl⟩, rfl⟩
  | seqLeft _ _ ihg ihh =>
    intro c hc hAfter
    obtain ⟨d, hg, hd, hRest⟩ := (ihg hc hAfter).success hc
    obtain ⟨r₂, hh, rfl⟩ := ihh hd hRest
    exact ⟨_, yieldsAt_seqLeft_iff.mpr ⟨_, hg, r₂, hh, rfl⟩, Result.outcome_map _⟩
  | seqLeft_failure _ ih =>
    intro c hc hAfter
    obtain ⟨e, hg⟩ := (ih hc hAfter).failure
    exact ⟨_, yieldsAt_seqLeft_iff.mpr ⟨_, hg, rfl⟩, rfl⟩
  | apply _ _ ihg ihh =>
    intro c hc hAfter
    obtain ⟨d, hg, hd, hRest⟩ := (ihg hc hAfter).success hc
    obtain ⟨r₂, hh, rfl⟩ := ihh hd hRest
    exact ⟨_, yieldsAt_apply_iff.mpr ⟨_, hg, r₂, hh, rfl⟩, Result.outcome_map _⟩
  | apply_failure _ ih =>
    intro c hc hAfter
    obtain ⟨e, hg⟩ := (ih hc hAfter).failure
    exact ⟨_, yieldsAt_apply_iff.mpr ⟨_, hg, rfl⟩, rfl⟩
  | bind _ _ ihg ihk =>
    intro c hc hAfter
    obtain ⟨d, hg, hd, hRest⟩ := (ihg hc hAfter).success hc
    obtain ⟨r₂, hk, rfl⟩ := ihk hd hRest
    exact ⟨_, yieldsAt_bind_iff.mpr ⟨_, hg, hk⟩, rfl⟩
  | bind_failure _ ih =>
    intro c hc hAfter
    obtain ⟨e, hg⟩ := (ih hc hAfter).failure
    exact ⟨_, yieldsAt_bind_iff.mpr ⟨_, hg, rfl⟩, rfl⟩
  | orElse_first _ ih =>
    intro c hc hAfter
    obtain ⟨d, hg, -, rfl⟩ := (ih hc hAfter).success hc
    exact ⟨_, yieldsAt_orElse_iff.mpr ⟨_, hg, rfl⟩, rfl⟩
  | orElse_second _ _ ihg ihh =>
    intro c hc hAfter
    obtain ⟨e, hg⟩ := (ihg hc hAfter).failure
    obtain ⟨r₂, hh, rfl⟩ := ihh hc hAfter
    exact ⟨_, yieldsAt_orElse_iff.mpr ⟨_, hg, r₂, hh, rfl⟩, Result.outcome_mapError _⟩
  | label _ ih =>
    intro c hc hAfter
    obtain ⟨r₁, hg, rfl⟩ := ih hc hAfter
    exact ⟨_, yieldsAt_label_iff.mpr ⟨r₁, hg, rfl⟩, Result.outcome_mapError _⟩
  | lexeme _ ih =>
    intro c hc hAfter
    obtain ⟨r₁, hg, rfl⟩ := ih hc hAfter
    exact ⟨_, yieldsAt_lexeme_iff.mpr ⟨r₁, hg, rfl⟩, Result.outcome_mapError _⟩
  | optional _ ih =>
    intro c hc hAfter
    obtain ⟨d, hg, -, rfl⟩ := (ih hc hAfter).success hc
    exact ⟨_, yieldsAt_optional_iff.mpr ⟨_, hg, rfl⟩, rfl⟩
  | optional_absent _ ih =>
    rintro c hc rfl
    obtain ⟨e, hg⟩ := (ih hc rfl).failure
    exact ⟨_, yieldsAt_optional_iff.mpr ⟨_, hg, rfl⟩, rfl⟩
  | option _ ih =>
    intro c hc hAfter
    obtain ⟨d, hg, -, rfl⟩ := (ih hc hAfter).success hc
    exact ⟨_, yieldsAt_option_iff.mpr ⟨_, hg, rfl⟩, rfl⟩
  | option_absent _ ih =>
    rintro c hc rfl
    obtain ⟨e, hg⟩ := (ih hc rfl).failure
    exact ⟨_, yieldsAt_option_iff.mpr ⟨_, hg, rfl⟩, rfl⟩
  | marked _ _ ihg ihh =>
    intro c hc hAfter
    obtain ⟨d, hg, hd, hRest⟩ := (ihg hc hAfter).success hc
    obtain ⟨r₂, hh, rfl⟩ := ihh hd hRest
    exact ⟨_, yieldsAt_marked_iff.mpr ⟨_, hg, hh⟩, rfl⟩
  | marked_absent _ ih =>
    rintro c hc rfl
    obtain ⟨e, hg⟩ := (ih hc rfl).failure
    exact ⟨_, yieldsAt_marked_iff.mpr ⟨_, hg, rfl⟩, rfl⟩
  | notFollowedBy _ ih =>
    rintro c hc rfl
    obtain ⟨e, hg⟩ := (ih hc rfl).failure
    exact ⟨_, yieldsAt_notFollowedBy_iff.mpr ⟨_, hg, rfl⟩, rfl⟩
  | notFollowedBy_failure _ ih =>
    intro c hc hAfter
    obtain ⟨d, hg, -, rfl⟩ := (ih hc hAfter).success hc
    exact ⟨_, yieldsAt_notFollowedBy_iff.mpr ⟨_, hg, rfl⟩, rfl⟩
  | many_stop _ ih =>
    rintro c hc rfl
    obtain ⟨e, hg⟩ := (ih hc rfl).failure
    exact ⟨_, yieldsAt_many_iff.mpr ⟨_, .stop hg, rfl⟩, rfl⟩
  | many_more _ hMoved _ ihg ihMore =>
    rintro c hc rfl
    obtain ⟨d, hg, hd, rfl⟩ := (ihg hc rfl).success hc
    obtain ⟨d', hRounds, rfl⟩ := (ihMore hd rfl).rounds
    have hLt := hg.position_lt_iff.mpr hMoved
    exact ⟨_, yieldsAt_many_iff.mpr ⟨_, .more hg hLt hRounds, rfl⟩, rfl⟩
  | many_failure _ hMoved _ ihg ihMore =>
    rintro c hc rfl
    obtain ⟨d, hg, hd, rfl⟩ := (ihg hc rfl).success hc
    obtain ⟨e, hRounds⟩ := (ihMore hd rfl).rounds_failure
    have hLt := hg.position_lt_iff.mpr hMoved
    exact ⟨_, yieldsAt_many_iff.mpr ⟨_, .more hg hLt hRounds, rfl⟩, rfl⟩
  | many_stall _ ih =>
    rintro c hc rfl
    obtain ⟨d, hg, -, hStay⟩ := (ih hc rfl).success hc
    have hLe := hg.position_lt_iff.not.mpr (not_not.mpr hStay)
    exact ⟨_, yieldsAt_many_iff.mpr ⟨_, .stall hg hLe, rfl⟩, rfl⟩
  | many1_more _ hMoved _ ihg ihMore =>
    rintro c hc rfl
    obtain ⟨d, hg, hd, rfl⟩ := (ihg hc rfl).success hc
    obtain ⟨d', hRounds, rfl⟩ := (ihMore hd rfl).rounds
    have hLt := hg.position_lt_iff.mpr hMoved
    exact ⟨_, yieldsAt_many1_iff.mpr ⟨_, .more hg hLt hRounds, rfl⟩, rfl⟩
  | many1_failure _ hMoved _ ihg ihMore =>
    rintro c hc rfl
    obtain ⟨d, hg, hd, rfl⟩ := (ihg hc rfl).success hc
    obtain ⟨e, hRounds⟩ := (ihMore hd rfl).rounds_failure
    have hLt := hg.position_lt_iff.mpr hMoved
    exact ⟨_, yieldsAt_many1_iff.mpr ⟨_, .more hg hLt hRounds, rfl⟩, rfl⟩
  | many1_stall _ ih =>
    rintro c hc rfl
    obtain ⟨d, hg, -, hStay⟩ := (ih hc rfl).success hc
    have hLe := hg.position_lt_iff.not.mpr (not_not.mpr hStay)
    exact ⟨_, yieldsAt_many1_iff.mpr ⟨_, .stall hg hLe, rfl⟩, rfl⟩
  | many1_none _ ih =>
    intro c hc hAfter
    obtain ⟨e, hg⟩ := (ih hc hAfter).failure
    exact ⟨_, yieldsAt_many1_iff.mpr ⟨_, .none hg, rfl⟩, rfl⟩
  | skipMany _ ih =>
    intro c hc hAfter
    obtain ⟨_, hMany, rfl⟩ := ih hc hAfter
    obtain ⟨rs, hRounds, rfl⟩ := yieldsAt_many_iff.mp hMany
    refine ⟨_, yieldsAt_skipMany_iff.mpr ⟨rs, hRounds, rfl⟩, ?_⟩
    rw [← Result.outcome_map, Result.map_map]
    rfl
  | skipMany1 _ ih =>
    intro c hc hAfter
    obtain ⟨_, hMany, rfl⟩ := ih hc hAfter
    obtain ⟨rs, hRounds, rfl⟩ := yieldsAt_many1_iff.mp hMany
    refine ⟨_, yieldsAt_skipMany1_iff.mpr ⟨rs, hRounds, rfl⟩, ?_⟩
    rw [← Result.outcome_map, Result.map_map]
    rfl
  | memo _ ih => exact ih
  | fresh _ ih => exact ih
  | tally _ ih =>
    intro c hc hAfter
    obtain ⟨r, hg, rfl⟩ := ih hc hAfter
    exact ⟨r, yieldsAt_tally_iff.mpr hg, rfl⟩
  | call hName _ ih =>
    rintro c ⟨tokens, hReads⟩ hAfter
    obtain ⟨r, hg, rfl⟩ := ih ⟨tokens, hReads⟩ hAfter
    exact ⟨r, (yieldsAt_call_iff_of_deep hReads hDeep).mpr ⟨_, hName, hg⟩, rfl⟩

/-! ## Runs -/

/-- The outcomes that are derived from the unread tokens of a cursor are those of the
results that the plain grammar yields there. -/
theorem Peg.derives_iff {o : Peg.Outcome τ} : Peg.Derives P (sliceValue C) g (after c) o ↔
    ∃ r : Result C Value, P.Yields g c r ∧ r.outcome = o := by
  constructor
  · intro h
    obtain ⟨r, hYields, hOutcome⟩ := h.matches (Nat.le_refl _) ⟨[], .refl c⟩ rfl
    exact ⟨r, hYields.yields, hOutcome⟩
  · rintro ⟨r, hYields, rfl⟩
    obtain ⟨n, hYieldsAt⟩ := yields_iff.mp hYields
    exact hYieldsAt.derives

namespace Session

/-- A run of a session succeeds with a value and some unread tokens exactly where these
are derived from the unread tokens of its cursor, and fails exactly where a failure is
derived, whatever has been run and stored before. -/
theorem Reachable.parsing_expressions {session : Session C} {memory : Nat → List τ}
    (h : session.Reachable memory) (hMemory : InMemory memory c) (g : Grammar) :
    (∀ v y, (∃ d, session.result? g c = some (.ok (v, d)) ∧ after d = y) ↔
      Peg.Derives session.program (sliceValue C) g (after c) (.success v y)) ∧
    ((∃ e, session.result? g c = some (.error e)) ↔
      Peg.Derives session.program (sliceValue C) g (after c) .failure) := by
  constructor
  · intro v y
    rw [Peg.derives_iff]
    constructor
    · rintro ⟨d, hResult, rfl⟩
      exact ⟨.ok (v, d), (h.result?_iff hMemory).mp hResult, rfl⟩
    · rintro ⟨r, hYields, hOutcome⟩
      obtain ⟨d, rfl, hAfter⟩ := Result.outcome_eq_success_iff.mp hOutcome
      exact ⟨d, (h.result?_iff hMemory).mpr hYields, hAfter⟩
  · rw [Peg.derives_iff]
    constructor
    · rintro ⟨e, hResult⟩
      exact ⟨.error e, (h.result?_iff hMemory).mp hResult, rfl⟩
    · rintro ⟨r, hYields, hOutcome⟩
      obtain ⟨e, rfl⟩ := Result.outcome_eq_failure_iff.mp hOutcome
      exact ⟨e, (h.result?_iff hMemory).mpr hYields⟩

/-- Nested brackets are run twice in one session, the second time from what is stored. -/
theorem parsing_expressions_of_stored :
    ∃ session : Session (SliceCursor Char), session.Reachable (fun _ => ['(', '(', ')', ')']) ∧
      (session.table "nest").size = 3 ∧
      Peg.Derives session.program (sliceValue (SliceCursor Char)) (.call (.shared "nest"))
        ['(', '(', ')', ')'] (.success .unit []) := by
  let program : Program := { shared := [("nest", .memo (.orElse
    (.seqLeft (.seqRight (.literal "(") (.call (.shared "nest"))) (.literal ")"))
    (.pure .unit)))] }
  let g : Grammar := .call (.shared "nest")
  let c : SliceCursor Char := .ofSource ⟨0, #['(', '(', ')', ')']⟩
  obtain ⟨report, session, d, hParse, hSize, hResult, hAfter⟩ : ∃ report session d,
      ({ program } : Session (SliceCursor Char)).parse g c = some (report, session) ∧
      (session.table "nest").size = 3 ∧ session.result? g c = some (.ok (.unit, d)) ∧
      after d = [] := ⟨_, _, _, rfl, rfl, rfl, rfl⟩
  have hMemory : InMemory (fun _ => ['(', '(', ')', ')']) c := ⟨[], rfl⟩
  have hSession : session.Reachable (fun _ => ['(', '(', ')', ')']) :=
    .parse (.start program) hMemory hParse
  exact ⟨session, hSession, hSize,
    ((hSession.parsing_expressions hMemory g).1 .unit []).mp ⟨d, hResult, hAfter⟩⟩

end Session

end Packrat

import Packrat.Proofs.Peg
import Packrat.Proofs.Simulation.Token

/-!
# Grammars without parts

The parsers of the grammars without parts end at once, and what they give is what their
rules make of the unread tokens.

* `Result.outcome`: a result as the rules know it;
* `matchAll_cases`: a literal is found where the unread tokens spell it;
* `Parser.Stops`: a parser that ends at once, with one lemma for every such parser;
* `Peg.exists_stops`, `Program.exists_yieldsAt_primitive`: the grammars without parts.
-/

namespace Packrat

open Input List

variable {C τ σ : Type} [InputView C τ σ] {c d : C} {r : Result C Value} {v : Value}

/-! ## Outcomes -/

variable (C) in
/-- The value of some tokens. -/
def sliceValue [ToValue σ] (s : List τ) : Value :=
  ToValue.toValue (sliceOf C s)

/-- A result, less its cursors and the failure. -/
def Result.outcome : Result C Value → Peg.Outcome τ :=
  cases (fun _ => .failure) fun v d => .success v (after d)

theorem Result.outcome_eq_success_iff {y : List τ} :
    r.outcome = .success v y ↔ ∃ d, r = .ok (v, d) ∧ after d = y := by
  rcases r with e | ⟨w, d⟩
  · simp [outcome]
  · simp [outcome]

theorem Result.outcome_eq_failure_iff : r.outcome = .failure ↔ ∃ e, r = .error e := by
  rcases r with e | ⟨w, d⟩
  · simp [outcome]
  · simp [outcome]

theorem Result.outcome_map (f : Value → Value) : (r.map f).outcome = r.outcome.map f := by
  rcases r with e | ⟨w, d⟩ <;> rfl

theorem Result.outcome_mapError (f : ParseError C → ParseError C) :
    (r.mapError f).outcome = r.outcome := by
  rcases r with e | ⟨w, d⟩ <;> rfl

variable [Input C τ σ] [Token τ] [LawfulInput C]

/-- A cursor is moved on if and only if other tokens come after it then. -/
theorem Reads.position_lt_iff_after_ne {tokens : List τ} (h : Reads c tokens d) :
    position c < position d ↔ after d ≠ after c := by
  rw [h.position_lt_iff, h.after_eq]
  simp

/-! ## Grammars without parts -/

/-- The next token of a cursor. -/
theorem uncons_cases (c : C) : (uncons c = none ∧ after c = []) ∨
    ∃ token d, uncons c = some (token, d) ∧ after c = token :: after d := by
  rcases hUncons : uncons c with _ | ⟨token, d⟩
  · exact .inl ⟨rfl, after_eq_nil_of_uncons hUncons⟩
  · exact .inr ⟨token, d, rfl, (reads_of_uncons hUncons).after_eq⟩

theorem after_scanAll (test : τ → Bool) (c : C) :
    after (Parser.scanAll test c) = (after c).dropWhile test := by
  have hAfter := (Parser.reads_scanAll test c).after_eq
  conv at hAfter => lhs; rw [← takeWhile_append_dropWhile (p := test) (l := after c)]
  exact (append_cancel_left hAfter).symm

omit [Token τ] [LawfulInput C] in
theorem Reads.drop_length {n : Nat} (h : Reads c ((after c).take n) d) :
    (after c).drop n = after d := by
  have hAfter := h.after_eq
  conv at hAfter => lhs; rw [← take_append_drop n (after c)]
  exact append_cancel_left hAfter

/-- A literal is found where the tokens spell it, but for what a key does not tell
apart. -/
theorem matchAll_cases (key : Char → Char) (wanted : List Char) : ∀ c : C,
    (wanted.map key <+: (after c).map (key ∘ Token.toChar) ∧
      ∃ d, Parser.matchAll (fun x y => key x == key y) wanted c = .ok d ∧
        Reads c ((after c).take wanted.length) d) ∨
    (¬wanted.map key <+: (after c).map (key ∘ Token.toChar) ∧
      ∃ x, Parser.matchAll (fun x y => key x == key y) wanted c = .error x) := by
  induction wanted with
  | nil => exact fun c => .inl ⟨⟨_, rfl⟩, c, rfl, .refl c⟩
  | cons x wanted ih =>
    intro c
    unfold Parser.matchAll
    rcases hUncons : uncons c with _ | ⟨token, d⟩
    · rw [after_eq_nil_of_uncons hUncons]
      exact .inr ⟨by simp, _, rfl⟩
    · have hReads := reads_of_uncons hUncons
      rw [show after c = token :: after d from hReads.after_eq]
      simp only [map_cons, cons_prefix_cons, Function.comp_apply, length_cons, take_succ_cons]
      by_cases hSame : key x = key (Token.toChar token)
      · rw [if_pos (by simp [hSame])]
        rcases ih d with ⟨hPrefix, d', hMatch, hRest⟩ | ⟨hPrefix, hMatch⟩
        · exact .inl ⟨⟨hSame, hPrefix⟩, d', hMatch, hReads.trans hRest⟩
        · exact .inr ⟨fun h => hPrefix h.2, hMatch⟩
      · rw [if_neg (by simpa using Ne.symm hSame)]
        exact .inr ⟨fun h => hSame h.1, _, rfl⟩

namespace Parser

/-- A parser that ends at once, with what it makes of the unread tokens. -/
def Stops (p : Parser C Value) (f : List τ → Peg.Outcome τ) : Prop :=
  ∀ c, ∃ r : Result C Value, r.outcome = f (after c) ∧ p c = Run.stop r

omit [Input C τ σ] [Token τ] [LawfulInput C] in
theorem stops_pure (v : Value) : Stops (C := C) (.pure v) (.success v) :=
  fun c => ⟨.ok (v, c), rfl, rfl⟩

theorem stops_satisfy (test : Char → Bool) (value : τ → Value) :
    Stops (C := C) (.map value (.satisfy (test ∘ Token.toChar))) (Peg.first test value) := by
  intro c
  unfold map onResult satisfy
  rcases uncons_cases c with ⟨hUncons, hAfter⟩ | ⟨token, d, hUncons, hAfter⟩
  · simp only [hUncons]
    exact ⟨.error (.endOfInput c), by rw [hAfter]; rfl, rfl⟩
  · rw [hAfter]
    by_cases hTest : test (Token.toChar token)
    · simp only [hUncons, Function.comp_apply, if_pos hTest, Peg.first]
      exact ⟨.ok (value token, d), rfl, rfl⟩
    · simp only [hUncons, Function.comp_apply, if_neg hTest, Peg.first]
      exact ⟨.error (.unexpected c token), rfl, rfl⟩

theorem stops_endOfInput : Stops (C := C) (.replace .unit .endOfInput)
    fun s => if s = [] then .success .unit s else .failure := by
  intro c
  unfold replace map onResult endOfInput
  rcases uncons_cases c with ⟨hUncons, hAfter⟩ | ⟨token, d, hUncons, hAfter⟩
  · simp only [hUncons, if_pos hAfter]
    exact ⟨.ok (.unit, c), rfl, rfl⟩
  · simp only [hUncons, if_neg (hAfter ▸ cons_ne_nil token (after d))]
    exact ⟨.error ((ParseError.unexpected c token).expecting "end of input"), rfl, rfl⟩

theorem stops_take (n : Nat) (value : σ → Value) : Stops (C := C) (.map value (.take n)) fun s =>
    if n ≤ s.length then .success (value (sliceOf C (s.take n))) (s.drop n) else .failure := by
  intro c
  unfold map onResult take
  rcases Nat.lt_or_ge (after c).length n with hLt | hLe
  · simp only [LawfulInput.splitAt_eq_none hLt, if_neg (Nat.not_le.mpr hLt)]
    exact ⟨.error (.new c (.tooFew n)), rfl, rfl⟩
  · obtain ⟨d, hSplit, hReads⟩ := LawfulInput.splitAt_eq_some hLe
    simp only [hSplit, if_pos hLe]
    exact ⟨.ok (_, d), by rw [hReads.drop_length]; rfl, rfl⟩

theorem stops_takeWhile (test : Char → Bool) (value : σ → Value) :
    Stops (C := C) (.map value (.takeWhile (test ∘ Token.toChar)))
      (Peg.longest test fun s => value (sliceOf C s)) := by
  intro c
  have hReads := reads_scanAll (test ∘ Token.toChar) c
  refine ⟨.ok (value (sliceTo c (scanAll _ c)), scanAll _ c), ?_, rfl⟩
  rw [LawfulInput.sliceTo_eq hReads]
  exact congrArg _ (after_scanAll _ c)

theorem stops_takeWhile1 (test : Char → Bool) (value : σ → Value) :
    Stops (C := C) (.map value (.takeWhile1 (test ∘ Token.toChar))) fun s =>
      if s.takeWhile (test ∘ Token.toChar) = [] then .failure
        else Peg.longest test (fun s => value (sliceOf C s)) s := by
  intro c
  have hReads := reads_scanAll (test ∘ Token.toChar) c
  unfold map onResult takeWhile1
  by_cases hNone : (after c).takeWhile (test ∘ Token.toChar) = []
  · have hStay : position (scanAll (test ∘ Token.toChar) c) = position c := by
      rw [hReads.position_eq, hNone, widthOf_nil, Nat.add_zero]
    simp only [if_pos hStay, if_pos hNone]
    exact ⟨.error (unfit c), rfl, rfl⟩
  · have hMove := Nat.ne_of_gt (hReads.position_lt_iff.mpr hNone)
    simp only [if_neg hMove, if_neg hNone]
    refine ⟨.ok (value (sliceTo c (scanAll _ c)), scanAll _ c), ?_, rfl⟩
    rw [LawfulInput.sliceTo_eq hReads]
    exact congrArg _ (after_scanAll _ c)

theorem stops_literal (text : String) (value : String → Value) :
    Stops (C := C) (.map value (.literal text)) (Peg.word id text fun _ => value text) := by
  intro c
  unfold map onResult literal Peg.word
  rcases matchAll_cases id text.toList c with ⟨hPrefix, d, hMatch, hReads⟩ | ⟨hPrefix, x, hMatch⟩
  · change matchAll (· == ·) text.toList c = .ok d at hMatch
    simp only [hMatch, if_pos hPrefix]
    exact ⟨.ok (value text, d), by rw [hReads.drop_length]; rfl, rfl⟩
  · change matchAll (· == ·) text.toList c = .error x at hMatch
    simp only [hMatch, if_neg hPrefix]
    exact ⟨_, rfl, rfl⟩

theorem stops_literalAnyCase (text : String) (value : σ → Value) :
    Stops (C := C) (.map value (.literalAnyCase text))
      (Peg.word Char.toLower text fun s => value (sliceOf C s)) := by
  intro c
  unfold map onResult literalAnyCase Peg.word
  rcases matchAll_cases Char.toLower text.toList c with
    ⟨hPrefix, d, hMatch, hReads⟩ | ⟨hPrefix, x, hMatch⟩
  · change matchAll sameButCase text.toList c = .ok d at hMatch
    simp only [hMatch, if_pos hPrefix]
    refine ⟨.ok (value (sliceTo c d), d), ?_, rfl⟩
    rw [hReads.drop_length, LawfulInput.sliceTo_eq hReads]
    rfl
  · change matchAll sameButCase text.toList c = .error x at hMatch
    simp only [hMatch, if_neg hPrefix]
    exact ⟨_, rfl, rfl⟩

end Parser

variable [ToValue τ] [ToValue σ]

/-- A grammar without parts ends at once, and gives what it makes of the unread
tokens. -/
theorem Peg.exists_stops {g : Grammar} {f : List τ → Peg.Outcome τ}
    (hPrimitive : Peg.primitive? (sliceValue C) g = some f) :
    ∃ p : Parser C Value, p.Stops f ∧ g.plain = g ∧ ∀ call a, g.parser call a = p := by
  cases g with
  | pure v =>
    cases hPrimitive
    exact ⟨_, Parser.stops_pure v, rfl, fun _ _ => rfl⟩
  | satisfy test =>
    cases hPrimitive
    exact ⟨_, Parser.stops_satisfy test _, rfl, fun _ _ => rfl⟩
  | skipIf test =>
    cases hPrimitive
    refine ⟨_, Parser.stops_satisfy test fun _ => .unit, rfl, fun _ _ => ?_⟩
    unfold Grammar.parser
    rw [Coupling.Simulates.skipIf_eq_replace]
    funext c st
    unfold Parser.replace Parser.map Parser.onResult
    rcases Parser.satisfy (test ∘ Token.toChar) c st with _ | ⟨e | ⟨v, d⟩, s⟩ <;> rfl
  | endOfInput =>
    cases hPrimitive
    exact ⟨_, Parser.stops_endOfInput, rfl, fun _ _ => rfl⟩
  | take n =>
    cases hPrimitive
    exact ⟨_, Parser.stops_take n _, rfl, fun _ _ => rfl⟩
  | takeWhile test =>
    cases hPrimitive
    exact ⟨_, Parser.stops_takeWhile test _, rfl, fun _ _ => rfl⟩
  | takeWhile1 test =>
    cases hPrimitive
    exact ⟨_, Parser.stops_takeWhile1 test _, rfl, fun _ _ => rfl⟩
  | skipWhile test =>
    cases hPrimitive
    exact ⟨_, Parser.stops_takeWhile test fun _ => .unit, rfl, fun _ _ => rfl⟩
  | literal text =>
    cases hPrimitive
    exact ⟨_, Parser.stops_literal text _, rfl, fun _ _ => rfl⟩
  | literalAnyCase text =>
    cases hPrimitive
    exact ⟨_, Parser.stops_literalAnyCase text _, rfl, fun _ _ => rfl⟩
  | _ => cases hPrimitive

/-- A grammar without parts ends at once, whatever the names stand for. -/
theorem Peg.parser_eq_stop {g : Grammar} {f : List τ → Peg.Outcome τ}
    (hPrimitive : Peg.primitive? (sliceValue C) g = some f) (c : C) :
    ∃ r : Result C Value, ∀ call a, g.parser call a c = Run.stop r := by
  obtain ⟨p, hStops, -, hEq⟩ := Peg.exists_stops hPrimitive
  obtain ⟨r, -, hRun⟩ := hStops c
  exact ⟨r, fun call a => by rw [hEq, hRun]⟩

/-- What a grammar without parts yields. -/
theorem Program.exists_yieldsAt_primitive {g : Grammar} {f : List τ → Peg.Outcome τ} (P : Program)
    (n : Nat) (hPrimitive : Peg.primitive? (sliceValue C) g = some f) (c : C) :
    ∃ r₀ : Result C Value, r₀.outcome = f (after c) ∧ ∀ r, P.YieldsAt n g c r ↔ r = r₀ := by
  obtain ⟨p, hStops, hPlain, hEq⟩ := Peg.exists_stops hPrimitive
  obtain ⟨r₀, hOutcome, hRun⟩ := hStops c
  refine ⟨r₀, hOutcome, fun r => ?_⟩
  unfold YieldsAt
  rw [hPlain, hEq, hRun]
  exact Run.gives_stop

end Packrat

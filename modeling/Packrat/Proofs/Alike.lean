import Packrat.Program
import Packrat.Proofs.Simulation.Numeral

/-!
# Grammars that treat related values alike

Two grammars of one shape lead from one place to one place if their functions
and continuations treat related values alike. Tests see only the characters of
tokens, so they need no condition, and neither do numerals, whose functions are
applied to digits alone.

* `Grammar.Alike`: two grammars of one shape that treat related values alike;
* `Grammar.alike_self`: every grammar treats equal values alike;
* `Grammar.Alike.simulates`: the parsers of two such grammars correspond;
* `Program.Alike`: programs of such grammars;
* `Program.Alike.simulates_succ`, `Program.Alike.simulates_level`: the parsers of
  the names of two such programs correspond.
-/

namespace Packrat

open Input List

/-- Two grammars of one shape whose values, functions and continuations treat
values in the relation `V` alike. Results may be stored in them only if `stored`
holds. -/
inductive Grammar.Alike (V : Value → Value → Prop) (stored : Prop) : Grammar → Grammar → Prop
  | pure {v w} (hValue : V v w) : Alike V stored (.pure v) (.pure w)
  | satisfy (test) : Alike V stored (.satisfy test) (.satisfy test)
  | skipIf (test) : Alike V stored (.skipIf test) (.skipIf test)
  | endOfInput : Alike V stored .endOfInput .endOfInput
  | take (n) : Alike V stored (.take n) (.take n)
  | takeWhile (test) : Alike V stored (.takeWhile test) (.takeWhile test)
  | takeWhile1 (test) : Alike V stored (.takeWhile1 test) (.takeWhile1 test)
  | skipWhile (test) : Alike V stored (.skipWhile test) (.skipWhile test)
  | literal (text) : Alike V stored (.literal text) (.literal text)
  | literalAnyCase (text) : Alike V stored (.literalAnyCase text) (.literalAnyCase text)
  | map {f f' g g'} (hValue : ∀ {v w}, V v w → V (f v) (f' w)) (hg : Alike V stored g g') :
    Alike V stored (.map f g) (.map f' g')
  | convert {f f' g g'} (name reason) (hValue : ∀ {v w}, V v w → Option.Rel V (f v) (f' w))
    (hg : Alike V stored g g') :
    Alike V stored (.convert name reason f g) (.convert name reason f' g')
  | both {g g' h h'} (hg : Alike V stored g g') (hh : Alike V stored h h') :
    Alike V stored (.both g h) (.both g' h')
  | seqRight {g g' h h'} (hg : Alike V stored g g') (hh : Alike V stored h h') :
    Alike V stored (.seqRight g h) (.seqRight g' h')
  | seqLeft {g g' h h'} (hg : Alike V stored g g') (hh : Alike V stored h h') :
    Alike V stored (.seqLeft g h) (.seqLeft g' h')
  | apply {g g' h h'} (hg : Alike V stored g g') (hh : Alike V stored h h') :
    Alike V stored (.apply g h) (.apply g' h')
  | bind {g g' k k'} (hg : Alike V stored g g')
    (hNext : ∀ {v w}, V v w → Alike V stored (k v) (k' w)) :
    Alike V stored (.bind g k) (.bind g' k')
  | orElse {g g' h h'} (hg : Alike V stored g g') (hh : Alike V stored h h') :
    Alike V stored (.orElse g h) (.orElse g' h')
  | label {g g'} (name) (hg : Alike V stored g g') :
    Alike V stored (.label name g) (.label name g')
  | lexeme {g g'} (name) (hg : Alike V stored g g') :
    Alike V stored (.lexeme name g) (.lexeme name g')
  | optional {g g'} (hg : Alike V stored g g') : Alike V stored (.optional g) (.optional g')
  | option {v w g g'} (hValue : V v w) (hg : Alike V stored g g') :
    Alike V stored (.option v g) (.option w g')
  | marked {v w g g' h h'} (hValue : V v w) (hg : Alike V stored g g')
    (hh : Alike V stored h h') : Alike V stored (.marked v g h) (.marked w g' h')
  | notFollowedBy {g g'} (hg : Alike V stored g g') :
    Alike V stored (.notFollowedBy g) (.notFollowedBy g')
  | many {g g'} (hg : Alike V stored g g') : Alike V stored (.many g) (.many g')
  | many1 {g g'} (hg : Alike V stored g g') : Alike V stored (.many1 g) (.many1 g')
  | skipMany {g g'} (hg : Alike V stored g g') : Alike V stored (.skipMany g) (.skipMany g')
  | skipMany1 {g g'} (hg : Alike V stored g g') : Alike V stored (.skipMany1 g) (.skipMany1 g')
  | memo {g g'} (hStored : stored) (hg : Alike V stored g g') :
    Alike V stored (.memo g) (.memo g')
  | fresh {g g'} (hg : Alike V stored g g') : Alike V stored (.fresh g) (.fresh g')
  | call (r) : Alike V stored (.call r) (.call r)
  | tally {g g'} (name) (hg : Alike V stored g g') :
    Alike V stored (.tally name g) (.tally name g')
  | integer : Alike V stored Grammar.integer Grammar.integer
  | number : Alike V stored Grammar.number Grammar.number

namespace Grammar

variable {stored : Prop}

/-- Every grammar treats equal values alike. -/
theorem alike_self (g : Grammar) : Alike Eq True g g := by
  induction g with
  | pure v => exact .pure rfl
  | satisfy test => exact .satisfy test
  | skipIf test => exact .skipIf test
  | endOfInput => exact .endOfInput
  | take n => exact .take n
  | takeWhile test => exact .takeWhile test
  | takeWhile1 test => exact .takeWhile1 test
  | skipWhile test => exact .skipWhile test
  | literal text => exact .literal text
  | literalAnyCase text => exact .literalAnyCase text
  | map f g ih => exact .map (fun h => by rw [h]) ih
  | convert name reason f g ih =>
    exact .convert name reason (fun {v w} h => h ▸ Value.Congruence.eq.refl_option (f v)) ih
  | both g h ihg ihh => exact .both ihg ihh
  | seqRight g h ihg ihh => exact .seqRight ihg ihh
  | seqLeft g h ihg ihh => exact .seqLeft ihg ihh
  | apply g h ihg ihh => exact .apply ihg ihh
  | bind g k ihg ihk => exact .bind ihg fun {v w} h => h ▸ ihk v
  | orElse g h ihg ihh => exact .orElse ihg ihh
  | label name g ih => exact .label name ih
  | lexeme name g ih => exact .lexeme name ih
  | optional g ih => exact .optional ih
  | option v g ih => exact .option rfl ih
  | marked v g h ihg ihh => exact .marked rfl ihg ihh
  | notFollowedBy g ih => exact .notFollowedBy ih
  | many g ih => exact .many ih
  | many1 g ih => exact .many1 ih
  | skipMany g ih => exact .skipMany ih
  | skipMany1 g ih => exact .skipMany1 ih
  | memo g ih => exact .memo trivial ih
  | fresh g ih => exact .fresh ih
  | call r => exact .call r
  | tally name g ih => exact .tally name ih

section

variable {C D τ σ υ ρ : Type}
  [Input C τ σ] [InputView C τ σ] [Token τ] [ToValue τ] [ToValue σ]
  [LawfulInput C] [LawfulToken τ]
  [Input D υ ρ] [InputView D υ ρ] [Token υ] [ToValue υ] [ToValue ρ]
  [LawfulInput D] [LawfulToken υ]
  {A : Alignment C D} {K : Coupling A} {call : Reference → Parser C Value}
  {call' : Reference → Parser D Value} {g g' : Grammar}

open Coupling

/-- The parsers of two grammars that treat related values alike correspond, if
the parsers of the names do and if the memo tables and what is built anew keep
the relation. Addresses matter only where results are stored. -/
theorem Alike.simulates (h : Alike A.value stored g g')
    (hCall : ∀ r, K.Simulates A.value (call r) (call' r))
    (hMemo : stored → ∀ {a p q}, K.Simulates A.value p q →
      K.Simulates A.value (.memo a p) (.memo a q))
    (hFresh : ∀ {p q}, K.Simulates A.value p q →
      K.Simulates A.value (.inFreshScope p) (.inFreshScope q)) :
    ∀ a b, (stored → a = b) → K.Simulates A.value (g.parser call a) (g'.parser call' b) := by
  have hA := A.congruence
  have hTurn : ∀ {a b : Address} (t : Turn), (stored → a = b) → stored → a.turn t = b.turn t := by
    intro a b t hab hStored
    rw [hab hStored]
  induction h with
  | pure hValue => exact fun a b _ => .pure hValue
  | satisfy test =>
    exact fun a b _ => (Simulates.satisfy (A.tests_toChar test)).map fun h => A.toValue h.1
  | skipIf test =>
    exact fun a b _ => (Simulates.skipIf (A.tests_toChar test)).replace (hA.refl _)
  | endOfInput => exact fun a b _ => Simulates.endOfInput.replace (hA.refl _)
  | take n => exact fun a b _ => (Simulates.take n).map Alignment.Slices.value
  | takeWhile test =>
    exact fun a b _ => (Simulates.takeWhile (A.tests_toChar test)).map Alignment.Slices.value
  | takeWhile1 test =>
    exact fun a b _ => (Simulates.takeWhile1 (A.tests_toChar test)).map Alignment.Slices.value
  | skipWhile test =>
    exact fun a b _ => (Simulates.skipWhile (A.tests_toChar test)).replace (hA.refl _)
  | literal text =>
    exact fun a b _ => (Simulates.literal text).map fun hText => hText ▸ hA.refl _
  | literalAnyCase text =>
    exact fun a b _ => (Simulates.literalAnyCase text).map Alignment.Slices.value
  | map hValue _ ih => exact fun a b hab => (ih a b hab).map hValue
  | convert name reason hValue _ ih =>
    exact fun a b hab => (ih a b hab).convert name reason hValue
  | both _ _ ihg ihh =>
    intro a b hab
    have hLeft := ihg _ _ (hTurn .left hab)
    have hRight := ihh _ _ (hTurn .right hab)
    exact (hLeft.both hRight).map fun hv => hA.pair hv.1 hv.2
  | seqRight _ _ ihg ihh =>
    intro a b hab
    have hLeft := ihg _ _ (hTurn .left hab)
    have hRight := ihh _ _ (hTurn .right hab)
    exact hLeft.seqRight hRight
  | seqLeft _ _ ihg ihh =>
    intro a b hab
    have hLeft := ihg _ _ (hTurn .left hab)
    have hRight := ihh _ _ (hTurn .right hab)
    exact hLeft.seqLeft hRight
  | apply _ _ ihg ihh =>
    intro a b hab
    have hLeft := ihg _ _ (hTurn .left hab)
    have hRight := ihh _ _ (hTurn .right hab)
    -- A function value becomes a function that treats related arguments alike.
    have hFunction := hLeft.map (f := Value.call) (g := Value.call)
      (W := fun f f' => ∀ x y, A.value x y → A.value (f x) (f' y))
      fun hf _ _ hx => hA.call hf hx
    exact (hFunction.both hRight).map fun hv => hv.1 _ _ hv.2
  | bind _ _ ihg ihk =>
    exact fun a b hab => (ihg a b hab).bind fun hv => hFresh (ihk hv _ _ fun _ => rfl)
  | orElse _ _ ihg ihh =>
    intro a b hab
    have hLeft := ihg _ _ (hTurn .left hab)
    have hRight := ihh _ _ (hTurn .right hab)
    exact hLeft.orElse hRight
  | label name _ ih => exact fun a b hab => (ih a b hab).label name
  | lexeme name _ ih => exact fun a b hab => (ih a b hab).lexeme name
  | optional _ ih => exact fun a b hab => (ih a b hab).optional.map hA.optional
  | option hValue _ ih => exact fun a b hab => (ih a b hab).option hValue
  | marked hValue _ _ ihg ihh =>
    intro a b hab
    have hMarker := ihg _ _ (hTurn .left hab)
    have hBody := ihh _ _ (hTurn .right hab)
    exact hMarker.marked hBody hValue
  | notFollowedBy _ ih => exact fun a b hab => (ih a b hab).notFollowedBy.replace (hA.refl _)
  | many _ ih => exact fun a b hab => (ih a b hab).many.map hA.list
  | many1 _ ih => exact fun a b hab => (ih a b hab).many1.map hA.list
  | skipMany _ ih => exact fun a b hab => (ih a b hab).skipMany.replace (hA.refl _)
  | skipMany1 _ ih => exact fun a b hab => (ih a b hab).skipMany1.replace (hA.refl _)
  | memo hStored _ ih =>
    intro a b hab
    obtain rfl := hab hStored
    exact hMemo hStored (ih _ _ fun _ => rfl)
  | fresh _ ih => exact fun a b _ => hFresh (ih _ _ fun _ => rfl)
  | call r => exact fun a b _ => hCall r
  | tally name _ ih => exact fun a b hab => (ih a b hab).tally name
  | integer => exact fun a b _ => Simulates.integer.mono fun hv => hv ▸ hA.refl _
  | number => exact fun a b _ => Simulates.number.mono fun hv => hv ▸ hA.refl _

end

end Grammar

/-! ## Programs -/

/-- Programs of the same names, whose grammars treat related values alike. -/
structure Program.Alike (V : Value → Value → Prop) (stored : Prop) (P Q : Program) : Prop where
  rules : Forall₂ (fun x y => x.1 = y.1 ∧ Grammar.Alike V stored x.2 y.2) P.rules Q.rules
  shared : Forall₂ (fun x y => x.1 = y.1 ∧ Grammar.Alike V stored x.2 y.2) P.shared Q.shared

theorem mem_of_lookup {l : List (String × Grammar)} {name : String} {g : Grammar}
    (h : l.lookup name = some g) : (name, g) ∈ l := by
  rw [lookup_eq_some_iff] at h
  obtain ⟨before, after, rfl, -⟩ := h
  exact mem_append_right _ mem_cons_self

theorem rel_lookup {R : Grammar → Grammar → Prop} {l m : List (String × Grammar)}
    (h : Forall₂ (fun x y => x.1 = y.1 ∧ R x.2 y.2) l m) (name : String) :
    Option.Rel R (l.lookup name) (m.lookup name) := by
  induction h with
  | nil => exact .none
  | @cons x y l m hHead _ ih =>
    obtain ⟨key, g⟩ := x
    obtain ⟨key', g'⟩ := y
    obtain ⟨rfl, hGrammar⟩ := hHead
    rw [lookup_cons, lookup_cons]
    by_cases hName : name == key
    · rw [hName]
      exact .some hGrammar
    · rw [Bool.not_eq_true] at hName
      rw [hName]
      exact ih

namespace Program

theorem alike_self (P : Program) : P.Alike Eq True P where
  rules := forall₂_same.mpr fun x _ => ⟨rfl, x.2.alike_self⟩
  shared := forall₂_same.mpr fun x _ => ⟨rfl, x.2.alike_self⟩

section

variable {C D τ σ υ ρ : Type}
  [Input C τ σ] [InputView C τ σ] [Token τ] [ToValue τ] [ToValue σ]
  [LawfulInput C] [LawfulToken τ]
  [Input D υ ρ] [InputView D υ ρ] [Token υ] [ToValue υ] [ToValue ρ]
  [LawfulInput D] [LawfulToken υ]
  {A : Alignment C D} {K : Coupling A} {P Q : Program} {stored : Prop}

open Coupling

/-- If the parsers of the names correspond, so do those one reference deeper. -/
theorem Alike.simulates_succ (h : P.Alike A.value stored Q)
    (hMemo : stored → ∀ {a p q}, K.Simulates A.value p q →
      K.Simulates A.value (.memo a p) (.memo a q))
    (hFresh : ∀ {p q}, K.Simulates A.value p q →
      K.Simulates A.value (.inFreshScope p) (.inFreshScope q)) {m n : Nat}
    (hCall : ∀ r, K.Simulates A.value (P.level m r) (Q.level n r)) (r : Reference) :
    K.Simulates A.value (P.level (m + 1) r) (Q.level (n + 1) r) := by
  cases r with
  | rule name =>
    have hLookup := rel_lookup h.rules name
    unfold level
    generalize P.rules.lookup name = x at hLookup ⊢
    generalize Q.rules.lookup name = y at hLookup ⊢
    cases hLookup with
    | some hGrammar =>
      exact hFresh (hGrammar.simulates hCall hMemo hFresh _ _ fun _ => rfl)
    | none => exact .silent
  | shared name =>
    have hLookup := rel_lookup h.shared name
    unfold level
    generalize P.shared.lookup name = x at hLookup ⊢
    generalize Q.shared.lookup name = y at hLookup ⊢
    cases hLookup with
    | some hGrammar => exact hGrammar.simulates hCall hMemo hFresh _ _ fun _ => rfl
    | none => exact .silent

/-- The parsers of the names correspond where references are followed equally
deeply. -/
theorem Alike.simulates_level (h : P.Alike A.value stored Q)
    (hMemo : stored → ∀ {a p q}, K.Simulates A.value p q →
      K.Simulates A.value (.memo a p) (.memo a q))
    (hFresh : ∀ {p q}, K.Simulates A.value p q →
      K.Simulates A.value (.inFreshScope p) (.inFreshScope q)) (n : Nat) :
    ∀ r, K.Simulates A.value (P.level n r) (Q.level n r) := by
  induction n with
  | zero => exact fun r => .silent
  | succ n ih => exact h.simulates_succ hMemo hFresh ih

end

end Program

end Packrat

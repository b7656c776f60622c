import Packrat.Proofs.Labels

/-!
# The record is for the reader alone

The parsers add to the record of a run, and none of them looks at it. In states that differ
only in their records a parser gives one result or none, and the states after it differ only
in their records again. So it does not matter to what comes after a parser which entries it
has added.

* `State.SameButRecord`, `Run.SameButRecord`, `Parser.SameButRecord`: states, runs and parsers
  that differ only in records;
* `Parser.HeedsNoRecord`: a parser to which the record makes no difference;
* `Parser.SameButRecord.bind`, `Parser.SameButRecord.orElse` and the like: one lemma for every
  way to build a parser;
* `Grammar.heedsNoRecord`, `Program.heedsNoRecord_level`: this holds of the parsers of all
  grammars and names, by induction on the grammar and on the depth of references.
-/

namespace Packrat

open Input

variable {C τ σ α β γ : Type}

/-! ## States -/

/-- Two states that differ only in their records. -/
structure State.SameButRecord (st st' : State C) : Prop where
  named_eq : st.named = st'.named
  current_eq : st.current = st'.current
  counts_eq : st.counts = st'.counts

namespace State.SameButRecord

variable {st st' st'' s s' : State C}

theorem refl (st : State C) : st.SameButRecord st :=
  ⟨rfl, rfl, rfl⟩

theorem symm (h : st.SameButRecord st') : st'.SameButRecord st :=
  ⟨h.named_eq.symm, h.current_eq.symm, h.counts_eq.symm⟩

theorem trans (h : st.SameButRecord st') (k : st'.SameButRecord st'') :
    st.SameButRecord st'' :=
  ⟨h.named_eq.trans k.named_eq, h.current_eq.trans k.current_eq, h.counts_eq.trans k.counts_eq⟩

/-- Whatever is noted in them, the states stay the same but for it. -/
theorem note (h : st.SameButRecord st') (x y : Record) :
    (st.note x).SameButRecord (st'.note y) :=
  ⟨h.named_eq, h.current_eq, h.counts_eq⟩

theorem tally (h : st.SameButRecord st') (name : String) :
    (st.tally name).SameButRecord (st'.tally name) :=
  ⟨h.named_eq, h.current_eq, by unfold State.tally; rw [h.counts_eq]⟩

theorem fresh (h : st.SameButRecord st') :
    State.SameButRecord { st with current := ∅ } { st' with current := ∅ } :=
  ⟨h.named_eq, rfl, h.counts_eq⟩

theorem restore (h : st.SameButRecord st') (k : s.SameButRecord s') :
    State.SameButRecord { s with current := st.current } { s' with current := st'.current } :=
  ⟨k.named_eq, h.current_eq, k.counts_eq⟩

theorem lookup_eq (h : st.SameButRecord st') (a : Address) (p : Place) :
    st.lookup a p = st'.lookup a p := by
  obtain ⟨scope, path⟩ := a
  unfold State.lookup State.table State.tables
  cases scope with
  | named name => simp only [h.named_eq]
  | current => simp only [h.current_eq]

theorem store (h : st.SameButRecord st') (a : Address) (p : Place) (r : Result C Value) :
    (st.store a p r).SameButRecord (st'.store a p r) := by
  obtain ⟨scope, path⟩ := a
  cases scope with
  | named name => exact ⟨congrArg (Tables.store · _ p r) h.named_eq, h.current_eq, h.counts_eq⟩
  | current => exact ⟨h.named_eq, congrArg (Tables.store · _ p r) h.current_eq, h.counts_eq⟩

end State.SameButRecord

/-! ## Runs -/

namespace Run

/-- Two runs from states that differ only in their records: one of them returns if and only if
the other one does, with the same result, and the states after it differ only in their
records. -/
def SameButRecord (x y : Run C α) : Prop :=
  ∀ ⦃st st'⦄, st.SameButRecord st' →
    Option.Rel (fun a b => a.1 = b.1 ∧ a.2.SameButRecord b.2) (x st) (y st')

namespace SameButRecord

variable {x y z : Run C α}

theorem stop (r : Result C α) : SameButRecord (.stop r) (.stop r) :=
  fun _ _ hState => .some ⟨rfl, hState⟩

theorem symm (h : SameButRecord x y) : SameButRecord y x := by
  intro st st' hState
  exact optionRel_symm (fun hSame => ⟨hSame.1.symm, hSame.2.symm⟩) (h hState.symm)

theorem trans (h : SameButRecord x y) (k : SameButRecord y z) : SameButRecord x z := by
  intro st st' hState
  refine optionRel_trans (fun hSame hSame' => ?_) (h hState) (k (.refl st'))
  exact ⟨hSame.1.trans hSame'.1, hSame.2.trans hSame'.2⟩

/-- What follows one result. -/
theorem followedBy {next next' : Result C α → Run C β} (h : SameButRecord x y)
    (hNext : ∀ r, SameButRecord (next r) (next' r)) :
    SameButRecord (x.followedBy next) (y.followedBy next') := by
  intro st st' hState
  have hFirst := h hState
  unfold Run.followedBy
  generalize x st = a at hFirst ⊢
  generalize y st' = b at hFirst ⊢
  cases hFirst with
  | none => exact .none
  | @some a b hSame =>
    obtain ⟨r, s⟩ := a
    obtain ⟨_, s'⟩ := b
    obtain ⟨rfl, hState'⟩ := hSame
    exact hNext r hState'

/-- The entries may be different ones. -/
theorem noting (h : SameButRecord x y) (entry entry' : Record) :
    SameButRecord (.noting entry x) (.noting entry' y) :=
  fun _ _ hState => h (hState.note entry entry')

end SameButRecord

end Run

/-! ## Parsers -/

namespace Parser

open Run

/-- Two parsers whose runs differ only in their records, at every cursor. -/
def SameButRecord (p q : Parser C α) : Prop :=
  ∀ c, Run.SameButRecord (p c) (q c)

/-- A parser to which the record that it finds makes no difference. -/
def HeedsNoRecord (p : Parser C α) : Prop :=
  SameButRecord p p

namespace SameButRecord

variable {p q p' q' p'' : Parser C α}

theorem symm (h : SameButRecord p q) : SameButRecord q p :=
  fun c => (h c).symm

theorem trans (h : SameButRecord p p') (k : SameButRecord p' p'') : SameButRecord p p'' :=
  fun c => (h c).trans (k c)

theorem silent : HeedsNoRecord (silent : Parser C α) :=
  fun _ _ _ _ => .none

theorem onResult (h : SameButRecord p q) (f : C → Result C α → Result C β) :
    SameButRecord (.onResult f p) (.onResult f q) := by
  intro c
  rw [onResult_eq, onResult_eq]
  exact (h c).followedBy fun r => .stop _

theorem map (h : SameButRecord p q) (f : α → β) : SameButRecord (.map f p) (.map f q) :=
  h.onResult _

theorem tally (h : SameButRecord p q) (name : String) :
    SameButRecord (.tally name p) (.tally name q) :=
  fun c _ _ hState => h c (hState.tally name)

theorem inFreshScope (h : SameButRecord p q) :
    SameButRecord (.inFreshScope p) (.inFreshScope q) := by
  intro c st st' hState
  have hRun := h c hState.fresh
  unfold Parser.inFreshScope
  generalize p c _ = a at hRun ⊢
  generalize q c _ = b at hRun ⊢
  cases hRun with
  | none => exact .none
  | some hSame => exact .some ⟨hSame.1, hState.restore hSame.2⟩

theorem bind (h : SameButRecord p q) {f g : α → Parser C β}
    (hNext : ∀ v, SameButRecord (f v) (g v)) : SameButRecord (.bind p f) (.bind q g) := by
  intro c
  rw [bind_eq, bind_eq]
  refine (h c).followedBy fun r => ?_
  rcases r with e | ⟨v, d⟩
  · exact .stop _
  · exact hNext v d

theorem map_both {q₁ q₂ : Parser C β} (h : SameButRecord p q) (h' : SameButRecord q₁ q₂)
    (f : α × β → γ) : SameButRecord (.map f (.both p q₁)) (.map f (.both q q₂)) := by
  rw [map_both_eq, map_both_eq]
  exact h.bind fun v => h'.map _

theorem marked {q₁ q₂ : Parser C β} (h : SameButRecord p q) (h' : SameButRecord q₁ q₂)
    (default : β) : SameButRecord (.marked default p q₁) (.marked default q q₂) := by
  intro c
  rw [marked_eq, marked_eq]
  refine (h c).followedBy fun r => ?_
  rcases r with e | ⟨v, d⟩
  · exact .stop _
  · exact h' d

variable [Input C τ σ]

theorem orElse (h : SameButRecord p q) (h' : SameButRecord p' q') :
    SameButRecord (.orElse p p') (.orElse q q') := by
  intro c
  rw [orElse_eq, orElse_eq]
  refine (h c).followedBy fun r => ?_
  rcases r with e | ⟨v, d⟩
  · exact .noting ((h' c).followedBy fun r => .stop _) _ _
  · exact .stop _

theorem stalled (c : C) : Run.SameButRecord (stalled c : Run C α) (stalled c) :=
  (Run.SameButRecord.stop _).noting _ _

/-- Each round but the last one is followed by the others, by induction on the bound. -/
theorem foldFrom (h : SameButRecord p q) (combine : β → α → β) (n : Nat) :
    ∀ acc c, Run.SameButRecord (Parser.foldFrom combine p n acc c)
      (Parser.foldFrom combine q n acc c) := by
  induction n with
  | zero => exact fun acc c st st' _ => .none
  | succ n ih =>
    intro acc c
    rw [foldFrom_succ, foldFrom_succ]
    refine (h c).followedBy fun r => ?_
    rcases r with e | ⟨v, d⟩
    · exact .stop _
    · simp only [Result.cases_ok]
      split
      · exact ih _ d
      · exact stalled c

theorem fold (h : SameButRecord p q) (combine : β → α → β) (start : β) :
    SameButRecord (.fold combine start p) (.fold combine start q) :=
  fun c => h.foldFrom combine _ start c

theorem fold1 (h : SameButRecord p q) (combine : β → α → β) (start : β) :
    SameButRecord (.fold1 combine start p) (.fold1 combine start q) := by
  intro c
  rw [fold1_eq, fold1_eq]
  refine (h c).followedBy fun r => ?_
  rcases r with e | ⟨v, d⟩
  · exact .stop _
  · simp only [Result.cases_ok]
    split
    · exact h.fold combine _ d
    · exact stalled c

/-- The same result is found on both sides, or both store the same one. -/
theorem memo {p q : Parser C Value} (h : SameButRecord p q) (a : Address) :
    SameButRecord (.memo a p) (.memo a q) := by
  intro c st st' hState
  have hRun := h c hState
  unfold Parser.memo
  rw [← hState.lookup_eq]
  cases st.lookup a (place c) with
  | some r => exact .some ⟨rfl, hState.note _ _⟩
  | none =>
    dsimp only
    generalize p c st = x at hRun ⊢
    generalize q c st' = y at hRun ⊢
    cases hRun with
    | none => exact .none
    | @some x y hSame =>
      obtain ⟨r, s⟩ := x
      obtain ⟨_, s'⟩ := y
      obtain ⟨rfl, hState'⟩ := hSame
      exact .some ⟨rfl, hState'.store a (place c) r⟩

end SameButRecord

end Parser

/-! ## Grammars -/

section

variable [Input C τ σ] [InputView C τ σ] [Token τ] [ToValue τ] [ToValue σ] [LawfulInput C]
  {call : Reference → Parser C Value}

theorem Grammar.heedsNoRecord_primitive {g : Grammar} {f : List τ → Peg.Outcome τ}
    (hPrimitive : Peg.primitive? (sliceValue C) g = some f) (a : Address) :
    (g.parser call a).HeedsNoRecord := by
  intro c
  obtain ⟨r, hStop⟩ := Peg.parser_eq_stop hPrimitive c
  rw [hStop]
  exact .stop r

/-- The record makes no difference to the parser of a grammar, by induction on the grammar. -/
theorem Grammar.heedsNoRecord (hCall : ∀ r, (call r).HeedsNoRecord) (g : Grammar) :
    ∀ a, (g.parser call a).HeedsNoRecord := by
  induction g with
  | pure | satisfy | skipIf | endOfInput | take | takeWhile | takeWhile1 | skipWhile | literal
  | literalAnyCase => exact fun a => heedsNoRecord_primitive rfl a
  | map f g ih => exact fun a => (ih a).map f
  | convert name reason f g ih => exact fun a => (ih a).onResult _
  | both g h ihg ihh => exact fun a => (ihg _).map_both (ihh _) _
  | seqRight g h ihg ihh => exact fun a => (ihg _).map_both (ihh _) Prod.snd
  | seqLeft g h ihg ihh => exact fun a => (ihg _).map_both (ihh _) Prod.fst
  | apply g h ihg ihh =>
    intro a
    unfold parser
    rw [Parser.apply_map_eq]
    exact (ihg _).map_both (ihh _) _
  | bind g k ihg ihk => exact fun a => (ihg a).bind fun v => (ihk v .fresh).inFreshScope
  | orElse g h ihg ihh => exact fun a => (ihg _).orElse (ihh _)
  | label name g ih => exact fun a => (ih a).onResult _
  | lexeme name g ih => exact fun a => (ih a).onResult _
  | optional g ih => exact fun a => ((ih a).onResult _).map _
  | option default g ih => exact fun a => (ih a).onResult _
  | marked default g h ihg ihh => exact fun a => (ihg _).marked (ihh _) default
  | notFollowedBy g ih => exact fun a => ((ih a).onResult _).map _
  | many g ih => exact fun a => (((ih a).fold Parser.push []).map List.reverse).map Value.list
  | many1 g ih => exact fun a => (((ih a).fold1 Parser.push []).map List.reverse).map Value.list
  | skipMany g ih => exact fun a => ((ih a).fold (fun _ _ => ()) ()).map _
  | skipMany1 g ih => exact fun a => ((ih a).fold1 (fun _ _ => ()) ()).map _
  | memo g ih => exact fun a => (ih _).memo a
  | fresh g ih => exact fun a => (ih .fresh).inFreshScope
  | call r => exact fun a => hCall r
  | tally name g ih => exact fun a => (ih a).tally name

/-- Nor does it to the parser of a name, by induction on how deeply references are followed. -/
theorem Program.heedsNoRecord_level (P : Program) (n : Nat) :
    ∀ r, (P.level n r : Parser C Value).HeedsNoRecord := by
  induction n with
  | zero => exact fun r => .silent
  | succ n ih =>
    intro r
    cases r with
    | rule name =>
      unfold level
      cases P.rules.lookup name with
      | none => exact .silent
      | some g => exact Parser.SameButRecord.inFreshScope (g.heedsNoRecord ih .fresh)
    | shared name =>
      unfold level
      cases P.shared.lookup name with
      | none => exact .silent
      | some g => exact g.heedsNoRecord ih (.named name)

end

end Packrat

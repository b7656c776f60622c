import Packrat.Proofs.Primitive
import Packrat.Proofs.Sessions

/-!
# Labels are for the reader alone

Two grammars that differ only in their labels, that is, in where labels stand and in
what they say. The runs of the two correspond but for the labels that failures carry:
no parser looks at them, and none decides anything by them.

* `Grammar.unlabelled`, `Program.unlabelled`: the same without labels;
* `Result.SameButLabels`, `State.SameButLabels`, `Run.SameButLabels`: results, tables
  and runs that differ only in the labels of failures;
* `Parser.SameButLabels.bind`, `Parser.SameButLabels.orElse` and the like: one lemma for
  every way to build a parser;
* `Grammar.sameButLabels_unlabelled`: a grammar and the same without labels, by induction
  on the grammar;
* `Session.Relabelled.state`: the states of two sessions, by induction on what they have
  gone through;
* `Session.Relabelled.parse_unlabelled`: a run in each of two sessions that differ in labels.
-/

namespace Packrat

open Input List

/-! ## Taking labels away -/

/-- The same grammar without labels. -/
def Grammar.unlabelled : Grammar → Grammar
  | label _ g => g.unlabelled
  | map f g => .map f g.unlabelled
  | convert name reason f g => .convert name reason f g.unlabelled
  | both g h => .both g.unlabelled h.unlabelled
  | seqRight g h => .seqRight g.unlabelled h.unlabelled
  | seqLeft g h => .seqLeft g.unlabelled h.unlabelled
  | apply g h => .apply g.unlabelled h.unlabelled
  | bind g k => .bind g.unlabelled fun v => (k v).unlabelled
  | orElse g h => .orElse g.unlabelled h.unlabelled
  | lexeme name g => .lexeme name g.unlabelled
  | optional g => .optional g.unlabelled
  | option default g => .option default g.unlabelled
  | marked default marker body => .marked default marker.unlabelled body.unlabelled
  | notFollowedBy g => .notFollowedBy g.unlabelled
  | many g => .many g.unlabelled
  | many1 g => .many1 g.unlabelled
  | skipMany g => .skipMany g.unlabelled
  | skipMany1 g => .skipMany1 g.unlabelled
  | memo g => .memo g.unlabelled
  | fresh g => .fresh g.unlabelled
  | tally name g => .tally name g.unlabelled
  | g => g

/-- Every grammar of a program without labels. -/
def Program.unlabelled (P : Program) : Program where
  rules := P.rules.map fun x => (x.1, x.2.unlabelled)
  shared := P.shared.map fun x => (x.1, x.2.unlabelled)

variable {C τ σ α β γ : Type}

/-! ## Results and states -/

theorem optionRel_mono {R S : α → β → Prop} {x : Option α} {y : Option β}
    (hMono : ∀ {a b}, R a b → S a b) (h : Option.Rel R x y) : Option.Rel S x y := by
  cases h with
  | none => exact .none
  | some hR => exact .some (hMono hR)

theorem optionRel_symm {R : α → β → Prop} {S : β → α → Prop} {x : Option α} {y : Option β}
    (hSymm : ∀ {a b}, R a b → S b a) (h : Option.Rel R x y) : Option.Rel S y x := by
  cases h with
  | none => exact .none
  | some hR => exact .some (hSymm hR)

theorem optionRel_trans {R : α → β → Prop} {S : β → γ → Prop} {T : α → γ → Prop} {x : Option α}
    {y : Option β} {z : Option γ} (hTrans : ∀ {a b c}, R a b → S b c → T a c)
    (h : Option.Rel R x y) (k : Option.Rel S y z) : Option.Rel T x z := by
  cases h with
  | none =>
    cases k with
    | none => exact .none
  | some hR =>
    cases k with
    | some hS => exact .some (hTrans hR hS)

/-- Two results that differ only in the labels of a failure: the same value with the
same cursor after it, or failures at the same cursor and position, for one reason and so
in the same words. -/
inductive Result.SameButLabels : Result C α → Result C α → Prop
  | ok (v : α) (d : C) : SameButLabels (.ok (v, d)) (.ok (v, d))
  | error {e f : ParseError C} (hRemaining : e.remaining = f.remaining)
    (hPosition : e.position = f.position) (hReason : e.reason = f.reason) :
    SameButLabels (.error e) (.error f)

namespace Result.SameButLabels

variable {r r' r'' : Result C α}

theorem refl : ∀ r : Result C α, r.SameButLabels r
  | .ok (v, d) => .ok v d
  | .error _ => .error rfl rfl rfl

theorem symm (h : r.SameButLabels r') : r'.SameButLabels r := by
  cases h with
  | ok v d => exact .ok v d
  | error hRemaining hPosition hReason => exact .error hRemaining.symm hPosition.symm hReason.symm

theorem trans (h : r.SameButLabels r') (k : r'.SameButLabels r'') : r.SameButLabels r'' := by
  cases h with
  | ok v d => exact k
  | error hRemaining hPosition hReason =>
    cases k with
    | error hRemaining' hPosition' hReason' =>
      exact .error (hRemaining.trans hRemaining') (hPosition.trans hPosition')
        (hReason.trans hReason')

end Result.SameButLabels

/-- Two states with the same counters, in which the same is stored but for the labels of
failures. -/
structure State.SameButLabels (st st' : State C) : Prop where
  lookup : ∀ a p, Option.Rel Result.SameButLabels (st.lookup a p) (st'.lookup a p)
  counts : st.counts = st'.counts

namespace State.SameButLabels

variable {st st' st'' s s' : State C}

theorem refl (st : State C) : st.SameButLabels st where
  lookup a p := by
    rcases st.lookup a p with _ | r
    · exact .none
    · exact .some (.refl r)
  counts := rfl

theorem symm (h : st.SameButLabels st') : st'.SameButLabels st where
  lookup a p := optionRel_symm (fun hSame => hSame.symm) (h.lookup a p)
  counts := h.counts.symm

theorem trans (h : st.SameButLabels st') (k : st'.SameButLabels st'') : st.SameButLabels st'' where
  lookup a p :=
    optionRel_trans (fun hSame hSame' => hSame.trans hSame') (h.lookup a p) (k.lookup a p)
  counts := h.counts.trans k.counts

theorem note (h : st.SameButLabels st') (x y : Record) :
    (st.note x).SameButLabels (st'.note y) where
  lookup a p := by
    rw [State.lookup_note, State.lookup_note]
    exact h.lookup a p
  counts := h.counts

theorem setLog (h : st.SameButLabels st') (log log' : List Record) :
    State.SameButLabels { st with log } { st' with log := log' } where
  lookup a p := by
    rw [State.lookup_setLog, State.lookup_setLog]
    exact h.lookup a p
  counts := h.counts

theorem tally (h : st.SameButLabels st') (name : String) :
    (st.tally name).SameButLabels (st'.tally name) where
  lookup a p := by
    rw [State.lookup_tally, State.lookup_tally]
    exact h.lookup a p
  counts := by
    unfold State.tally
    rw [h.counts]

theorem fresh (h : st.SameButLabels st') :
    State.SameButLabels { st with current := ∅ } { st' with current := ∅ } where
  lookup := by
    intro ⟨scope, path⟩ p
    rw [State.lookup_fresh, State.lookup_fresh]
    cases scope with
    | named name => exact h.lookup _ p
    | current => exact .none
  counts := h.counts

theorem restore (h : st.SameButLabels st') (k : s.SameButLabels s') :
    State.SameButLabels { s with current := st.current } { s' with current := st'.current } where
  lookup := by
    intro ⟨scope, path⟩ p
    rw [State.lookup_restore, State.lookup_restore]
    cases scope with
    | named name => exact k.lookup _ p
    | current => exact h.lookup _ p
  counts := k.counts

theorem store (h : st.SameButLabels st') (a : Address) (p : Place) {r r' : Result C Value}
    (hResult : r.SameButLabels r') : (st.store a p r).SameButLabels (st'.store a p r') where
  lookup b q := by
    rw [State.lookup_store, State.lookup_store]
    split
    · exact .some hResult
    · exact h.lookup b q
  counts := by
    obtain ⟨scope, path⟩ := a
    cases scope <;> exact h.counts

theorem clear (h : st.SameButLabels st') (a : Address) :
    (st.clear a).SameButLabels (st'.clear a) where
  lookup b p := by
    rw [State.lookup_clear, State.lookup_clear]
    split
    · exact .none
    · exact h.lookup b p
  counts := by
    obtain ⟨scope, path⟩ := a
    cases scope <;> exact h.counts

/-- The tables of the two hold results for the same places. -/
theorem keys_eq (h : st.SameButLabels st') (a : Address) :
    (st.table a).keys = (st'.table a).keys := by
  have hEquiv : (st.table a).map (fun _ _ => ()) |>.Equiv ((st'.table a).map fun _ _ => ()) := by
    refine .of_forall_constGet?_eq fun p => ?_
    have hLookup : Option.Rel Result.SameButLabels (st.table a)[p]? (st'.table a)[p]? :=
      h.lookup a p
    rw [Std.TreeMap.getElem?_map, Std.TreeMap.getElem?_map]
    generalize (st.table a)[p]? = x at hLookup ⊢
    generalize (st'.table a)[p]? = y at hLookup ⊢
    cases hLookup <;> rfl
  rw [← Std.TreeMap.keys_map (f := fun _ _ => ()), hEquiv.keys_eq, Std.TreeMap.keys_map]

end State.SameButLabels

/-! ## Runs -/

namespace Run

/-- Two runs from states that differ only in labels: one of them returns if and only if
the other one does, the results and the states after it differ only in labels, and the
records are the same. -/
def SameButLabels (x y : Run C α) : Prop :=
  ∀ ⦃st st'⦄, st.SameButLabels st' → st.log = st'.log →
    Option.Rel (fun a b => a.1.SameButLabels b.1 ∧ a.2.SameButLabels b.2 ∧ a.2.log = b.2.log)
      (x st) (y st')

namespace SameButLabels

variable {x y z : Run C α}

theorem stop {r r' : Result C α} (h : r.SameButLabels r') :
    SameButLabels (.stop r) (.stop r') :=
  fun _ _ hState hLog => .some ⟨h, hState, hLog⟩

theorem symm (h : SameButLabels x y) : SameButLabels y x := by
  intro st st' hState hLog
  refine optionRel_symm (fun hSame => ?_) (h hState.symm hLog.symm)
  exact ⟨hSame.1.symm, hSame.2.1.symm, hSame.2.2.symm⟩

theorem trans (h : SameButLabels x y) (k : SameButLabels y z) : SameButLabels x z := by
  intro st st' hState hLog
  refine optionRel_trans (fun hSame hSame' => ?_) (h hState hLog) (k (.refl st') rfl)
  exact ⟨hSame.1.trans hSame'.1, hSame.2.1.trans hSame'.2.1, hSame.2.2.trans hSame'.2.2⟩

/-- What follows results that differ only in labels. -/
theorem followedBy {y : Run C α} {next next' : Result C α → Run C β} (h : SameButLabels x y)
    (hNext : ∀ {r r'}, r.SameButLabels r' → SameButLabels (next r) (next' r')) :
    SameButLabels (x.followedBy next) (y.followedBy next') := by
  intro st st' hState hLog
  have hFirst := h hState hLog
  unfold Run.followedBy
  generalize x st = a at hFirst ⊢
  generalize y st' = b at hFirst ⊢
  cases hFirst with
  | none => exact .none
  | some hSame => exact hNext hSame.1 hSame.2.1 hSame.2.2

theorem noting (h : SameButLabels x y) (entry : Record) :
    SameButLabels (.noting entry x) (.noting entry y) := by
  intro st st' hState hLog
  refine h (hState.note entry entry) ?_
  unfold State.note
  rw [hLog]

end SameButLabels

end Run

/-! ## Parsers -/

namespace Parser

open Run

/-- Two parsers whose runs differ only in labels, at every cursor. -/
def SameButLabels (p q : Parser C α) : Prop :=
  ∀ c, Run.SameButLabels (p c) (q c)

namespace SameButLabels

variable {p q p₁ p₂ : Parser C α}

theorem symm (h : SameButLabels p q) : SameButLabels q p :=
  fun c => (h c).symm

theorem trans (h : SameButLabels p p₁) (k : SameButLabels p₁ q) : SameButLabels p q :=
  fun c => (h c).trans (k c)

theorem silent : SameButLabels (silent : Parser C α) .silent :=
  fun _ _ _ _ _ => .none

/-- A label changes nothing but labels. -/
theorem label_left (h : SameButLabels p q) (name : String) : SameButLabels (label name p) q := by
  intro c
  rw [label_eq, ← followedBy_stop (q c)]
  refine (h c).followedBy fun {r r'} hSame => .stop ?_
  cases hSame with
  | ok v d => exact .ok v d
  | error hRemaining hPosition hReason => exact .error hRemaining hPosition hReason

/-! ### One parser -/

theorem onResult (h : SameButLabels p q) {f g : C → Result C α → Result C β}
    (hResult : ∀ {c r r'}, r.SameButLabels r' → (f c r).SameButLabels (g c r')) :
    SameButLabels (.onResult f p) (.onResult g q) := by
  intro c
  rw [onResult_eq, onResult_eq]
  exact (h c).followedBy fun hSame => .stop (hResult hSame)

theorem map (h : SameButLabels p q) (f : α → β) : SameButLabels (.map f p) (.map f q) :=
  h.onResult fun hSame => by
    cases hSame with
    | ok v d => exact .ok (f v) d
    | error hRemaining hPosition hReason => exact .error hRemaining hPosition hReason

theorem optional (h : SameButLabels p q) : SameButLabels (.optional p) (.optional q) :=
  h.onResult fun hSame => by
    cases hSame with
    | ok v d => exact .ok (some v) d
    | error _ _ _ => exact .ok none _

theorem option (h : SameButLabels p q) (default : α) :
    SameButLabels (.option default p) (.option default q) :=
  h.onResult fun hSame => by
    cases hSame with
    | ok v d => exact .ok v d
    | error _ _ _ => exact .ok default _

theorem tally (h : SameButLabels p q) (name : String) :
    SameButLabels (.tally name p) (.tally name q) :=
  fun c _ _ hState hLog => h c (hState.tally name) hLog

theorem inFreshScope (h : SameButLabels p q) :
    SameButLabels (.inFreshScope p) (.inFreshScope q) := by
  intro c st st' hState hLog
  have hRel := h c hState.fresh hLog
  unfold Parser.inFreshScope
  generalize p c { st with current := ∅ } = x at hRel ⊢
  generalize q c { st' with current := ∅ } = y at hRel ⊢
  cases hRel with
  | none => exact .none
  | some hSame => exact .some ⟨hSame.1, hState.restore hSame.2.1, hSame.2.2⟩

/-! ### Two parsers -/

theorem bind (h : SameButLabels p q) {f g : α → Parser C β}
    (hNext : ∀ v, SameButLabels (f v) (g v)) : SameButLabels (.bind p f) (.bind q g) := by
  intro c
  rw [bind_eq, bind_eq]
  refine (h c).followedBy fun hSame => ?_
  cases hSame with
  | ok v d => exact hNext v d
  | error hRemaining hPosition hReason =>
    exact .stop (.error hRemaining hPosition hReason)

/-- Two parsers one after the other, with the pair of their values worked over. -/
theorem map_both {p' q' : Parser C β} (h : SameButLabels p q) (h' : SameButLabels p' q')
    (f : α × β → γ) : SameButLabels (.map f (.both p p')) (.map f (.both q q')) := by
  rw [map_both_eq, map_both_eq]
  exact h.bind fun v => h'.map fun w => f (v, w)

theorem marked {p' q' : Parser C β} (h : SameButLabels p q) (h' : SameButLabels p' q')
    (default : β) : SameButLabels (.marked default p p') (.marked default q q') := by
  intro c
  rw [marked_eq, marked_eq]
  refine (h c).followedBy fun hSame => ?_
  cases hSame with
  | ok v d => exact h' d
  | error _ _ _ => exact .stop (.ok default c)

section

variable [Input C τ σ]

theorem lexeme (h : SameButLabels p q) (name : String) :
    SameButLabels (.lexeme name p) (.lexeme name q) :=
  h.onResult fun hSame => by
    cases hSame with
    | ok v d => exact .ok v d
    | error _ _ hReason => exact .error rfl rfl hReason

theorem convert (h : SameButLabels p q) (name : String) (reason : Reason) (f : α → Option β) :
    SameButLabels (.convert name reason f p) (.convert name reason f q) :=
  h.onResult fun hSame => by
    cases hSame with
    | ok v d => exact .refl _
    | error hRemaining hPosition hReason => exact .error hRemaining hPosition hReason

theorem notFollowedBy (h : SameButLabels p q) :
    SameButLabels (.notFollowedBy p) (.notFollowedBy q) :=
  h.onResult fun hSame => by
    cases hSame with
    | ok v d => exact .refl _
    | error _ _ _ => exact .refl _

/-- The record of a choice mentions where the first alternative has failed, which does not
depend on labels. -/
theorem orElse (h : SameButLabels p q) (h' : SameButLabels p₁ p₂) :
    SameButLabels (.orElse p p₁) (.orElse q p₂) := by
  intro c
  rw [orElse_eq, orElse_eq]
  refine (h c).followedBy fun hSame => ?_
  cases hSame with
  | ok v d => exact .stop (.ok v d)
  | @error e f _ hPosition _ =>
    simp only [Result.cases_error, hPosition]
    refine .noting ((h' c).followedBy fun hSame' => .stop ?_) _
    cases hSame' with
    | ok v d => exact .ok v d
    | error _ _ hReason => exact .error rfl rfl hReason

/-! ### Repetition -/

theorem foldFrom (h : SameButLabels p q) (combine : β → α → β) (n : Nat) :
    ∀ acc c, Run.SameButLabels (Parser.foldFrom combine p n acc c)
      (Parser.foldFrom combine q n acc c) := by
  induction n with
  | zero => exact fun acc c st st' _ _ => .none
  | succ n ih =>
    intro acc c
    rw [foldFrom_succ, foldFrom_succ]
    refine (h c).followedBy fun hSame => ?_
    cases hSame with
    | ok v d =>
      simp only [Result.cases_ok]
      split
      · exact ih _ d
      · exact (Run.SameButLabels.stop (.refl _)).noting _
    | error _ _ _ => exact .stop (.ok acc c)

theorem fold (h : SameButLabels p q) (combine : β → α → β) (start : β) :
    SameButLabels (.fold combine start p) (.fold combine start q) :=
  fun c => h.foldFrom combine _ start c

theorem fold1 (h : SameButLabels p q) (combine : β → α → β) (start : β) :
    SameButLabels (.fold1 combine start p) (.fold1 combine start q) := by
  intro c
  rw [fold1_eq, fold1_eq]
  refine (h c).followedBy fun hSame => ?_
  cases hSame with
  | ok v d =>
    simp only [Result.cases_ok]
    split
    · exact h.fold combine _ d
    · exact (Run.SameButLabels.stop (.refl _)).noting _
  | error hRemaining hPosition hReason =>
    exact .stop (.error hRemaining hPosition hReason)

/-! ### Stored results -/

/-- A result is found on both sides or on neither, and then both store theirs. -/
theorem memo {p q : Parser C Value} (h : SameButLabels p q) (a : Address) :
    SameButLabels (.memo a p) (.memo a q) := by
  intro c st st' hState hLog
  have hFound := hState.lookup a (place c)
  unfold Parser.memo
  generalize st.lookup a (place c) = x at hFound ⊢
  generalize st'.lookup a (place c) = y at hFound ⊢
  cases hFound with
  | some hSame =>
    refine .some ⟨hSame, hState.note _ _, ?_⟩
    unfold State.note
    rw [hLog]
  | none =>
    have hRel := h c hState hLog
    dsimp only
    generalize p c st = x at hRel ⊢
    generalize q c st' = y at hRel ⊢
    cases hRel with
    | none => exact .none
    | some hSame =>
      refine .some ⟨hSame.1, hSame.2.1.store a (place c) hSame.1, ?_⟩
      obtain ⟨scope, path⟩ := a
      cases scope <;> exact hSame.2.2

end

end SameButLabels

end Parser

/-! ## Grammars -/

section

variable [Input C τ σ] [InputView C τ σ] [Token τ] [ToValue τ] [ToValue σ] [LawfulInput C]
  {call call' : Reference → Parser C Value}

open Packrat.Parser

/-- The parser of a grammar without parts has no label to lose. -/
theorem Grammar.sameButLabels_primitive {g : Grammar} {f : List τ → Peg.Outcome τ}
    (hPrimitive : Peg.primitive? (sliceValue C) g = some f) (a b : Address) :
    (g.parser call a).SameButLabels (g.parser call' b) := by
  intro c
  obtain ⟨r, hStop⟩ := Peg.parser_eq_stop hPrimitive c
  rw [hStop, hStop]
  exact .stop (.refl r)

/-- The parser of a grammar and that of the same grammar without labels, by induction on
the grammar. Labels take no part in addresses, so both look up and store at the same
ones. -/
theorem Grammar.sameButLabels_unlabelled (hCall : ∀ r, (call r).SameButLabels (call' r))
    (g : Grammar) :
    ∀ a, (g.parser call a).SameButLabels (g.unlabelled.parser call' a) := by
  induction g with
  | pure | satisfy | skipIf | endOfInput | take | takeWhile | takeWhile1 | skipWhile | literal
  | literalAnyCase => exact fun a => sameButLabels_primitive rfl a a
  | label name g ih => exact fun a => (ih a).label_left name
  | map f g ih => exact fun a => (ih a).map f
  | convert name reason f g ih => exact fun a => (ih a).convert name reason f
  | both g h ihg ihh =>
    exact fun a => (ihg _).map_both (ihh _) fun pair => Value.pair pair.1 pair.2
  | seqRight g h ihg ihh => exact fun a => (ihg _).map_both (ihh _) Prod.snd
  | seqLeft g h ihg ihh => exact fun a => (ihg _).map_both (ihh _) Prod.fst
  | apply g h ihg ihh =>
    intro a
    unfold unlabelled parser
    rw [apply_map_eq, apply_map_eq]
    exact (ihg _).map_both (ihh _) fun pair => pair.1.call pair.2
  | bind g k ihg ihk => exact fun a => (ihg a).bind fun v => (ihk v .fresh).inFreshScope
  | orElse g h ihg ihh => exact fun a => (ihg _).orElse (ihh _)
  | lexeme name g ih => exact fun a => (ih a).lexeme name
  | optional g ih => exact fun a => (ih a).optional.map _
  | option default g ih => exact fun a => (ih a).option default
  | marked default g h ihg ihh => exact fun a => (ihg _).marked (ihh _) default
  | notFollowedBy g ih => exact fun a => (ih a).notFollowedBy.map _
  | many g ih => exact fun a => (((ih a).fold push []).map List.reverse).map Value.list
  | many1 g ih => exact fun a => (((ih a).fold1 push []).map List.reverse).map Value.list
  | skipMany g ih => exact fun a => ((ih a).fold (fun _ _ => ()) ()).map _
  | skipMany1 g ih => exact fun a => ((ih a).fold1 (fun _ _ => ()) ()).map _
  | memo g ih => exact fun a => (ih _).memo a
  | fresh g ih => exact fun a => (ih .fresh).inFreshScope
  | call r => exact fun a => hCall r
  | tally name g ih => exact fun a => (ih a).tally name

/-! ## Programs -/

namespace Program

variable {P Q : Program} {g g' : Grammar}

/-- The names of a program without labels, by induction on the depth of references. -/
theorem sameButLabels_level (P : Program) (n : Nat) :
    ∀ r, (P.level n r : Parser C Value).SameButLabels (P.unlabelled.level n r) := by
  induction n with
  | zero => exact fun r => .silent
  | succ n ih =>
    intro r
    cases r with
    | rule name =>
      have hLookup := lookup_map Grammar.unlabelled P.rules name
      unfold level unlabelled
      rw [hLookup]
      cases P.rules.lookup name with
      | none => exact .silent
      | some g => exact (g.sameButLabels_unlabelled ih .fresh).inFreshScope
    | shared name =>
      have hLookup := lookup_map Grammar.unlabelled P.shared name
      unfold level unlabelled
      rw [hLookup]
      cases P.shared.lookup name with
      | none => exact .silent
      | some g => exact g.sameButLabels_unlabelled ih (.named name)

omit [InputView C τ σ] [Token τ] [ToValue τ] [ToValue σ] [LawfulInput C] in
theorem depth_unlabelled (P : Program) (c : C) : P.unlabelled.depth c = P.depth c := by
  simp [depth, unlabelled]

theorem sameButLabels_unlabelled (P : Program) (g : Grammar) :
    (P.parser g : Parser C Value).SameButLabels (P.unlabelled.parser g.unlabelled) := by
  refine .inFreshScope fun c => ?_
  rw [P.depth_unlabelled]
  exact g.sameButLabels_unlabelled (P.sameButLabels_level _) .fresh c

/-- The parsers of two programs that are the same without labels. -/
theorem sameButLabels (hProgram : P.unlabelled = Q.unlabelled)
    (hGrammar : g.unlabelled = g'.unlabelled) :
    (P.parser g : Parser C Value).SameButLabels (Q.parser g') := by
  have hRight := (Q.sameButLabels_unlabelled g' : Parser.SameButLabels (C := C) _ _).symm
  rw [← hProgram, ← hGrammar] at hRight
  exact (P.sameButLabels_unlabelled g).trans hRight

end Program

/-! ## Sessions -/

/-- Two records that are the same but for the words of a failure. -/
inductive Record.SameButWords : Record → Record → Prop
  | refl (x : Record) : SameButWords x x
  | failed (position : Nat) (text text' : String) :
    SameButWords (.failed position text) (.failed position text')

/-- Two reports that differ only in the labels of a failure: all records but the words of
the last one before the end are the same. -/
structure Report.SameButLabels (x y : Report C) : Prop where
  result : x.result.SameButLabels y.result
  trace : ∃ events last last', x.trace = events ++ [last, .exited] ∧
    y.trace = events ++ [last', .exited] ∧ last.SameButWords last'

omit [InputView C τ σ] [Token τ] [ToValue τ] [ToValue σ] [LawfulInput C] in
theorem Parser.ending_sameButWords {r r' : Result C α} (h : r.SameButLabels r') :
    (ending r).SameButWords (ending r') := by
  cases h with
  | ok v d => exact .refl _
  | error _ hPosition _ =>
    dsimp only [ending]
    rw [hPosition]
    exact .failed _ _ _

namespace Session

/-- Two sessions that go through the same runs and the same forgetting, but with programs
and grammars that differ in labels. -/
inductive Relabelled : Session C → Session C → Prop
  | start {P Q : Program} (hProgram : P.unlabelled = Q.unlabelled) :
    Relabelled { program := P } { program := Q }
  | parse {s t s' t' : Session C} {g g' : Grammar} {c : C} {x y : Report C}
    (h : Relabelled s t) (hGrammar : g.unlabelled = g'.unlabelled)
    (hLeft : s.parse g c = some (x, s')) (hRight : t.parse g' c = some (y, t')) :
    Relabelled s' t'
  | clear {s t : Session C} (name : String) (h : Relabelled s t) :
    Relabelled (s.clear name) (t.clear name)

variable {s t : Session C} {g g' : Grammar} {c : C}

/-- What one run keeps of two sessions that differ only in labels. -/
theorem parse_sameButLabels (hProgram : s.program.unlabelled = t.program.unlabelled)
    (hState : s.state.SameButLabels t.state) (hGrammar : g.unlabelled = g'.unlabelled) (c : C) :
    Option.Rel (fun x y => x.1.SameButLabels y.1 ∧ x.2.state.SameButLabels y.2.state)
      (s.parse g c) (t.parse g' c) := by
  have hOpened : (s.opened c).SameButLabels (t.opened c) := (hState.setLog [] []).note _ _
  have hRun := Program.sameButLabels hProgram hGrammar c hOpened rfl
  rw [parse_eq, parse_eq]
  generalize s.program.parser g c (s.opened c) = a at hRun ⊢
  generalize t.program.parser g' c (t.opened c) = b at hRun ⊢
  cases hRun with
  | none => exact .none
  | @some x y hSame =>
    obtain ⟨hResult, hAfter, hLog⟩ := hSame
    refine .some ⟨⟨hResult, x.2.log.reverse, Parser.ending x.1, Parser.ending y.1, ?_, ?_,
      Parser.ending_sameButWords hResult⟩, (hAfter.note _ _).note _ _⟩
    · simp [closed, State.note]
    · simp [closed, State.note, hLog]

namespace Relabelled

omit [InputView C τ σ] [LawfulInput C] in
theorem program (h : Relabelled s t) : s.program.unlabelled = t.program.unlabelled := by
  induction h with
  | start hProgram => exact hProgram
  | parse h hGrammar hLeft hRight ih =>
    obtain ⟨_, -, -, rfl⟩ := parse_eq_some_iff.mp hLeft
    obtain ⟨_, -, -, rfl⟩ := parse_eq_some_iff.mp hRight
    exact ih
  | clear name h ih => exact ih

/-- The states of the two are the same but for the labels of stored failures, by
induction on what the sessions have gone through. -/
theorem state (h : Relabelled s t) : s.state.SameButLabels t.state := by
  induction h with
  | start hProgram => exact .refl _
  | @parse _ _ _ _ _ _ c _ _ h hGrammar hLeft hRight ih =>
    have hStep := parse_sameButLabels h.program ih hGrammar c
    rw [hLeft, hRight] at hStep
    cases hStep with
    | some hSame => exact hSame.2
  | clear name h ih => exact ih.clear (.named name)

/-- Labels are for the reader alone: of two runs that differ in labels, one returns if
and only if the other one does. The results and the records are the same but for the
labels of a failure, and afterwards every table holds results for the same places. -/
theorem parse_unlabelled (h : Relabelled s t) (hGrammar : g.unlabelled = g'.unlabelled) (c : C) :
    Option.Rel (fun x y => x.1.SameButLabels y.1 ∧ x.2.state.SameButLabels y.2.state ∧
        ∀ a, (x.2.state.table a).keys = (y.2.state.table a).keys)
      (s.parse g c) (t.parse g' c) := by
  have hStep := parse_sameButLabels h.program h.state hGrammar c
  refine optionRel_mono (fun hSame => ?_) hStep
  exact ⟨hSame.1, hSame.2, hSame.2.keys_eq⟩

end Relabelled

end Session

end

/-- A failure is stored with a label in one session and without it in the other one, and
is then used again below a label that only the second session has. -/
theorem Session.parse_unlabelled_of_stored : ∃ s t : Session (SliceCursor Char), s.Relabelled t ∧
    (s.table "digit").toList.map (fun x => x.2.toOption.isNone) = [true] ∧
    (s.table "digit").values ≠ (t.table "digit").values ∧
    Option.Rel (fun x y => x.1.SameButLabels y.1 ∧ x.2.state.SameButLabels y.2.state ∧
        ∀ a, (x.2.state.table a).keys = (y.2.state.table a).keys)
      (s.parse (.many (.call (.shared "digit"))) (.ofSource ⟨0, #['a']⟩))
      (t.parse (.label "digits" (.many (.call (.shared "digit")))) (.ofSource ⟨0, #['a']⟩)) := by
  let c : SliceCursor Char := .ofSource ⟨0, #['a']⟩
  let program : Program := { shared := [("digit", .memo (.label "digit" (.satisfy Char.isDigit)))] }
  let other : Program := { shared := [("digit", .memo (.satisfy Char.isDigit))] }
  obtain ⟨x, y, s, t, hLeft, hRight, hStored, hLabel⟩ : ∃ x y s t,
      ({ program } : Session (SliceCursor Char)).parse (.call (.shared "digit")) c = some (x, s) ∧
      ({ program := other } : Session (SliceCursor Char)).parse (.call (.shared "digit")) c =
        some (y, t) ∧
      (s.table "digit").toList.map (fun x => x.2.toOption.isNone) = [true] ∧
      (s.table "digit").values ≠ (t.table "digit").values :=
    ⟨_, _, _, _, rfl, rfl, rfl, by decide⟩
  have hSessions : s.Relabelled t :=
    .parse (.start (P := program) (Q := other) rfl) rfl hLeft hRight
  have hGrammar : (Grammar.many (.call (.shared "digit"))).unlabelled =
      (Grammar.label "digits" (.many (.call (.shared "digit")))).unlabelled := rfl
  exact ⟨s, t, hSessions, hStored, hLabel, hSessions.parse_unlabelled hGrammar c⟩

end Packrat

import Mathlib.Data.List.Forall2
import Mathlib.Data.List.Induction
import Packrat.Grammar.Parser
import Packrat.Input.Text
import Packrat.Proofs.Runs

/-!
# Sequencing

Parsers one after the other are a monad: a value that leads to the next parser is read first,
a failure stays as it is, and what is next starts in the state and at the cursor that were left.
All the ways to put two parsers in a row are made of this, and so the laws of applicative
functors hold. These are equations between parsers, so they hold of results with their
failures and of states with all that is stored and recorded there.

In a series of parsers each one starts where the one before it has ended, and the first one
that fails is the last one to be run.

* `Parser.bind_assoc`, `Parser.both_eq_bind` and the like: the laws, and one equation for every
  way to put parsers in a row;
* `Series`: parsers in a row with pairs nested to the left, with its parts and its values;
* `InTurn`, `UpTo`: parsers that succeed one after the other, and up to one of them;
* `Series.parser_ok_iff`, `Series.parser_error_iff`, `Series.parser_none_iff`: the three ways in
  which a series ends;
* `Grammar.parser_bind_bind`, `Grammar.parser_sequence`: the laws for grammars, and the series of
  a sequence;
* `Parser.SequencingLaws`, `Parser.sequencingLaws`: all that holds of parsers in a row.
-/

namespace Packrat

open List

variable {C α β γ δ : Type}

/-! ## One parser after the other -/

namespace Parser

/-- What a parser goes on with after a first part is all there is to a sequence. -/
theorem eq_bind {p : Parser C α} {q : Parser C β} {f : α → Parser C β}
    {next : C → Result C α → Run C β} (hRun : ∀ c, q c = Run.followedBy (p c) (next c))
    (hError : ∀ c e, next c (.error e) = Run.stop (.error e))
    (hOk : ∀ c v d, next c (.ok (v, d)) = f v d) : q = bind p f := by
  funext c
  rw [hRun, bind_eq]
  congr 1
  funext r
  rcases r with e | ⟨v, d⟩
  · exact hError c e
  · exact hOk c v d

theorem pure_bind (v : α) (f : α → Parser C β) : bind (pure v) f = f v := rfl

theorem bind_pure (p : Parser C α) : bind p pure = p :=
  (eq_bind (fun c => (Run.followedBy_stop (p c)).symm) (fun _ _ => rfl) fun _ _ _ => rfl).symm

theorem bind_assoc (p : Parser C α) (f : α → Parser C β) (g : β → Parser C γ) :
    bind (bind p f) g = bind p fun v => bind (f v) g := by
  funext c
  rw [bind_eq, bind_eq, bind_eq, Run.followedBy_assoc]
  congr 1
  funext r
  rcases r with e | ⟨v, d⟩
  · rfl
  · exact (bind_eq (f v) g).symm

theorem map_eq_bind (f : α → β) (p : Parser C α) : map f p = bind p fun v => pure (f v) :=
  eq_bind (fun _ => map_eq f p) (fun _ _ => rfl) fun _ _ _ => rfl

theorem map_both_eq_bind (f : α × β → γ) (p : Parser C α) (q : Parser C β) :
    map f (both p q) = bind p fun v => bind q fun w => pure (f (v, w)) := by
  rw [map_both_eq]
  simp only [map_eq_bind]

theorem both_eq_bind (p : Parser C α) (q : Parser C β) :
    both p q = bind p fun v => bind q fun w => pure (v, w) := by
  refine Eq.trans ?_ (map_both_eq_bind id p q)
  rw [map_eq_bind]
  exact (bind_pure _).symm

theorem seqRight_eq_bind (p : Parser C α) (q : Parser C β) :
    seqRight p q = bind p fun _ => q := by
  refine (map_both_eq_bind _ p q).trans ?_
  simp only [bind_pure]

theorem seqLeft_eq_bind (p : Parser C α) (q : Parser C β) :
    seqLeft p q = bind p fun v => bind q fun _ => pure v :=
  map_both_eq_bind _ p q

theorem apply_eq_bind (p : Parser C (α → β)) (q : Parser C α) :
    apply p q = bind p fun f => bind q fun v => pure (f v) :=
  map_both_eq_bind _ p q

/-! ## Scopes -/

/-- What is built anew after a parser does not see where that one was built. -/
theorem inFreshScope_bind (p : Parser C α) (f : α → Parser C β) :
    inFreshScope (bind p fun v => inFreshScope (f v)) =
      bind (inFreshScope p) fun v => inFreshScope (f v) := by
  funext c st
  unfold inFreshScope bind
  rcases hp : p c { st with current := ∅ } with _ | ⟨e | ⟨v, d⟩, s⟩
  · simp only [hp]
  · simp only [hp]
  · simp only [hp]
    rcases f v d { s with current := ∅ } with _ | ⟨r, t⟩ <;> rfl

/-! ## Two parsers that end -/

variable {p : Parser C α} {q : Parser C β} {c : C} {st t : State C}

theorem both_ok_iff {x : α × β} {d' : C} : both p q c st = some (.ok (x, d'), t) ↔
    ∃ d s, p c st = some (.ok (x.1, d), s) ∧ q d s = some (.ok (x.2, d'), t) := by
  obtain ⟨v', w'⟩ := x
  unfold both
  rcases p c st with _ | ⟨e | ⟨v, d⟩, s⟩
  · simp
  · simp
  · rcases hq : q d s with _ | ⟨e | ⟨w, d''⟩, s'⟩
    · simp [hq]
    · simp [hq]
    · simp only [hq]
      grind

theorem both_error_iff {e : ParseError C} : both p q c st = some (.error e, t) ↔
    p c st = some (.error e, t) ∨
      ∃ v d s, p c st = some (.ok (v, d), s) ∧ q d s = some (.error e, t) := by
  unfold both
  rcases p c st with _ | ⟨e | ⟨v, d⟩, s⟩
  · simp
  · simp
  · rcases hq : q d s with _ | ⟨e | ⟨w, d'⟩, s'⟩ <;> simp [hq]

theorem both_none_iff : both p q c st = none ↔
    p c st = none ∨ ∃ v d s, p c st = some (.ok (v, d), s) ∧ q d s = none := by
  unfold both
  rcases p c st with _ | ⟨e | ⟨v, d⟩, s⟩
  · simp
  · simp
  · rcases hq : q d s with _ | ⟨e | ⟨w, d'⟩, s'⟩ <;> simp [hq]

end Parser

/-! ## Series -/

/-- A parser of values of some type. -/
abbrev Part (C : Type) : Type 1 :=
  Σ α : Type, Parser C α

/-- Parsers one after the other, with pairs nested to the left. -/
inductive Series (C : Type) : Type → Type 1
  | one {α : Type} (p : Parser C α) : Series C α
  | and {α β : Type} (front : Series C α) (p : Parser C β) : Series C (α × β)

namespace Series

def parser : {α : Type} → Series C α → Parser C α
  | _, one p => p
  | _, and front p => .both front.parser p

/-- The parsers of a series from first to last. -/
def parts : {α : Type} → Series C α → List (Part C)
  | _, one p => [⟨_, p⟩]
  | _, and front p => front.parts ++ [⟨_, p⟩]

/-- The values in nested pairs from first to last. -/
def values : {α : Type} → Series C α → α → List (Σ β : Type, β)
  | _, one _, v => [⟨_, v⟩]
  | _, and front _, x => front.values x.1 ++ [⟨_, x.2⟩]

theorem exists_parts (first : Part C) (more : List (Part C)) :
    ∃ (α : Type) (series : Series C α), series.parts = first :: more := by
  induction more using reverseRecOn with
  | nil => exact ⟨_, .one first.2, rfl⟩
  | append_singleton more last ih =>
    obtain ⟨α, series, hParts⟩ := ih
    exact ⟨_, .and series last.2, by rw [parts, hParts]; rfl⟩

end Series

/-- Parsers that succeed one after the other, each one from where the one before it has ended,
with their values. -/
def InTurn : List (Part C) → C → State C → List (Σ β : Type, β) → C → State C → Prop
  | [], c, st, vs, d, s => vs = [] ∧ d = c ∧ s = st
  | p :: ps, c, st, vs, d, s => ∃ v c' st' ws, p.2 c st = some (.ok (v, c'), st') ∧
    vs = ⟨p.1, v⟩ :: ws ∧ InTurn ps c' st' ws d s

/-- The parsers in front of one of them succeed, and then something holds of that one. -/
def UpTo (Q : Part C → C → State C → Prop) (parts : List (Part C)) (c : C) (st : State C) :
    Prop :=
  ∃ ps p qs vs d s, parts = ps ++ p :: qs ∧ InTurn ps c st vs d s ∧ Q p d s

section

variable {c d : C} {st s : State C} {ps : List (Part C)} {p : Part C}

theorem inTurn_concat_iff {ws : List (Σ β : Type, β)} : InTurn (ps ++ [p]) c st ws d s ↔
    ∃ vs c' st' v, InTurn ps c st vs c' st' ∧ p.2 c' st' = some (.ok (v, d), s) ∧
      ws = vs ++ [⟨p.1, v⟩] := by
  induction ps generalizing c st ws with
  | nil => simp [InTurn]
  | cons q ps ih =>
    simp only [cons_append, InTurn, ih]
    constructor
    · rintro ⟨v, c', st', -, hq, rfl, vs, c'', st'', w, hFront, hp, rfl⟩
      exact ⟨_, c'', st'', w, ⟨v, c', st', vs, hq, rfl, hFront⟩, hp, rfl⟩
    · rintro ⟨-, c'', st'', w, ⟨v, c', st', vs, hq, rfl, hFront⟩, hp, rfl⟩
      exact ⟨v, c', st', _, hq, rfl, vs, c'', st'', w, hFront, hp, rfl⟩

theorem upTo_singleton_iff {Q : Part C → C → State C → Prop} :
    UpTo Q [p] c st ↔ Q p c st := by
  constructor
  · rintro ⟨ps, p', qs, vs, d, s, hSplit, hFront, hQ⟩
    rcases singleton_eq_append_iff.mp hSplit with ⟨rfl, hLast⟩ | ⟨-, hNone⟩
    · cases hLast
      obtain ⟨-, rfl, rfl⟩ := hFront
      exact hQ
    · cases hNone
  · exact fun hQ => ⟨[], p, [], [], c, st, rfl, ⟨rfl, rfl, rfl⟩, hQ⟩

/-- What holds of some part holds of one in front of the last one, or of that one. -/
theorem upTo_concat_iff {Q : Part C → C → State C → Prop} : UpTo Q (ps ++ [p]) c st ↔
    UpTo Q ps c st ∨ ∃ vs d s, InTurn ps c st vs d s ∧ Q p d s := by
  constructor
  · rintro ⟨as, b, bs, vs, d, s, hSplit, hFront, hb⟩
    rcases eq_nil_or_concat bs with rfl | ⟨bs, b', rfl⟩
    · obtain ⟨rfl, hLast⟩ := append_inj' hSplit rfl
      obtain rfl := singleton_inj.mp hLast
      exact .inr ⟨vs, d, s, hFront, hb⟩
    · rw [concat_eq_append, ← cons_append, ← append_assoc] at hSplit
      obtain ⟨rfl, -⟩ := append_inj' hSplit rfl
      exact .inl ⟨as, b, bs, vs, d, s, rfl, hFront, hb⟩
  · rintro (⟨as, b, bs, vs, d, s, rfl, hFront, hb⟩ | ⟨vs, d, s, hFront, hp⟩)
    · exact ⟨as, b, bs ++ [p], vs, d, s, by simp, hFront, hb⟩
    · exact ⟨ps, p, [], vs, d, s, rfl, hFront, hp⟩

end

namespace Series

variable {c d : C} {st s : State C}

/-- A series succeeds if all of its parts do, and its value is that of nested pairs. -/
theorem parser_ok_iff {series : Series C α} {x : α} :
    series.parser c st = some (.ok (x, d), s) ↔ InTurn series.parts c st (series.values x) d s := by
  induction series generalizing d s with
  | one p => simp [parser, parts, values, InTurn, eq_comm]
  | and front p ih =>
    rw [parser, Parser.both_ok_iff, parts, values, inTurn_concat_iff]
    simp only [ih]
    constructor
    · rintro ⟨c', st', hFront, hp⟩
      exact ⟨_, c', st', x.2, hFront, hp, rfl⟩
    · rintro ⟨vs, c', st', v, hFront, hp, hValues⟩
      obtain ⟨rfl, hLast⟩ := append_inj' hValues rfl
      obtain rfl : x.2 = v := by simpa using hLast
      exact ⟨c', st', hFront, hp⟩

/-- The parts of a series succeed if the series does. -/
theorem exists_inTurn_iff {series : Series C α} {Q : C → State C → Prop} :
    (∃ vs d s, InTurn series.parts c st vs d s ∧ Q d s) ↔
      ∃ x d s, series.parser c st = some (.ok (x, d), s) ∧ Q d s := by
  constructor
  · rintro ⟨vs, d, s, hRun, hQ⟩
    suffices hValues : ∃ x, vs = series.values x by
      obtain ⟨x, rfl⟩ := hValues
      exact ⟨x, d, s, parser_ok_iff.mpr hRun, hQ⟩
    clear hQ
    induction series generalizing vs d s with
    | one p =>
      obtain ⟨v, c', st', ws, -, rfl, rfl, -⟩ := hRun
      exact ⟨v, rfl⟩
    | and front p ih =>
      obtain ⟨vs, c', st', v, hFront, -, rfl⟩ := inTurn_concat_iff.mp hRun
      obtain ⟨x, rfl⟩ := ih _ _ _ hFront
      exact ⟨(x, v), rfl⟩
  · rintro ⟨x, d, s, hRun, hQ⟩
    exact ⟨_, d, s, parser_ok_iff.mp hRun, hQ⟩

/-- A series fails with the failure of the first part that fails. -/
theorem parser_error_iff {series : Series C α} {e : ParseError C} :
    series.parser c st = some (.error e, s) ↔
      UpTo (fun p d t => p.2 d t = some (.error e, s)) series.parts c st := by
  induction series with
  | one p =>
    rw [parts, upTo_singleton_iff]
    rfl
  | and front p ih => rw [parser, Parser.both_error_iff, parts, upTo_concat_iff, ih,
      exists_inTurn_iff]

/-- A series does not return if a part does not, and those in front of it succeed. -/
theorem parser_none_iff {series : Series C α} : series.parser c st = none ↔
    UpTo (fun p d t => p.2 d t = none) series.parts c st := by
  induction series with
  | one p =>
    rw [parts, upTo_singleton_iff]
    rfl
  | and front p ih => rw [parser, Parser.both_none_iff, parts, upTo_concat_iff, ih,
      exists_inTurn_iff]

/-- What comes after the part that fails is not run, and so it is not counted. -/
example : ∃ e, (Series.and (.and (.one (.literal "a")) (.literal "b"))
      (.tally "late" (.literal "c"))).parser (TextCursor.ofSource ⟨0, "axc"⟩) {} =
        some (.error e, {}) ∧ e.position = 1 :=
  ⟨_, rfl, rfl⟩

end Series

/-! ## Grammars -/

namespace Grammar

variable {τ σ : Type} [Input C τ σ] [Token τ] [ToValue τ] [ToValue σ]

/-- What a continuation gives of a value that is there already is a grammar built anew. -/
theorem parser_pure_bind (call : Reference → Parser C Value) (v : Value) (k : Value → Grammar)
    (a : Address) : (bind (pure v) k).parser call a = (fresh (k v)).parser call a :=
  Parser.pure_bind v _

theorem parser_bind_pure (call : Reference → Parser C Value) (g : Grammar) (a : Address) :
    (bind g pure).parser call a = g.parser call a :=
  Parser.bind_pure _

/-- What a continuation builds anew, and what the next one does, are apart in any case. -/
theorem parser_bind_bind (call : Reference → Parser C Value) (g : Grammar)
    (k l : Value → Grammar) (a : Address) :
    (bind (bind g k) l).parser call a = (bind g fun v => bind (k v) l).parser call a := by
  simp only [parser, Parser.bind_assoc, Parser.inFreshScope_bind]

/-- A sequence of grammars is a series of parsers of theirs, with its value made of theirs. -/
theorem parser_sequence (call : Reference → Parser C Value) (g : Grammar) (more : List Grammar)
    (a : Address) : ∃ (α : Type) (series : Series C α) (f : α → Value),
      (sequence g more).parser call a = .map f series.parser ∧
      Forall₂ (fun h p => ∃ b, p = ⟨Value, h.parser call b⟩) (g :: more) series.parts ∧
      ∀ x, ∃ v vs, series.values x = (v :: vs).map (Sigma.mk Value) ∧ f x = vs.foldl .pair v := by
  induction more using reverseRecOn generalizing a with
  | nil =>
    refine ⟨Value, .one (g.parser call a), id, ?_, .cons ⟨a, rfl⟩ .nil, fun x => ⟨x, [], rfl, rfl⟩⟩
    rw [Parser.map_eq_bind]
    exact (Parser.bind_pure _).symm
  | append_singleton more h ih =>
    obtain ⟨α, series, f, hParser, hParts, hValues⟩ := ih (a.turn .left)
    have hLast : (sequence g (more ++ [h])).parser call a =
        .map (fun pair => .pair pair.1 pair.2) (.both ((sequence g more).parser call (a.turn .left))
          (h.parser call (a.turn .right))) := by
      unfold sequence
      rw [foldl_append]
      rfl
    refine ⟨α × Value, .and series (h.parser call (a.turn .right)), fun x => .pair (f x.1) x.2,
      ?_, rel_append hParts (.cons ⟨_, rfl⟩ .nil), fun x => ?_⟩
    · rw [hLast, hParser, Parser.map_both_eq, Parser.bind_map_eq, Series.parser, Parser.map_both_eq]
    · obtain ⟨v, vs, hFront, hPairs⟩ := hValues x.1
      refine ⟨v, vs ++ [x.2], ?_, ?_⟩
      · rw [Series.values, hFront, ← cons_append, map_append]
        rfl
      · rw [foldl_append, ← hPairs]
        rfl

end Grammar

/-! ## All together -/

namespace Parser

/-- What holds of parsers in a row. -/
structure SequencingLaws (C : Type) : Prop where
  pure_bind : ∀ {α β : Type} v (f : α → Parser C β), bind (pure v) f = f v
  bind_pure : ∀ {α : Type} (p : Parser C α), bind p pure = p
  bind_assoc : ∀ {α β γ : Type} (p : Parser C α) (f : α → Parser C β) (g : β → Parser C γ),
    bind (bind p f) g = bind p fun v => bind (f v) g
  map_eq : ∀ {α β : Type} f (p : Parser C α), map (β := β) f p = bind p fun v => pure (f v)
  replace_eq : ∀ {α β : Type} (w : β) (p : Parser C α), replace w p = bind p fun _ => pure w
  both_eq : ∀ {α β : Type} (p : Parser C α) (q : Parser C β),
    both p q = bind p fun v => bind q fun w => pure (v, w)
  seqRight_eq : ∀ {α β : Type} (p : Parser C α) (q : Parser C β),
    seqRight p q = bind p fun _ => q
  seqLeft_eq : ∀ {α β : Type} (p : Parser C α) (q : Parser C β),
    seqLeft p q = bind p fun v => bind q fun _ => pure v
  apply_eq : ∀ {α β : Type} (p : Parser C (α → β)) q,
    apply p q = bind p fun f => bind q fun v => pure (f v)
  apply_identity : ∀ {α : Type} (p : Parser C α), apply (pure id) p = p
  apply_homomorphism : ∀ {α β : Type} (f : α → β) v,
    apply (pure f : Parser C (α → β)) (pure v) = pure (f v)
  apply_interchange : ∀ {α β : Type} (p : Parser C (α → β)) v,
    apply p (pure v) = apply (pure fun f => f v) p
  apply_composition : ∀ {α β γ : Type} (p : Parser C (β → γ)) (q : Parser C (α → β)) r,
    apply (apply (apply (pure (· ∘ ·)) p) q) r = apply p (apply q r)
  both_assoc : ∀ {α β γ : Type} (p : Parser C α) (q : Parser C β) (r : Parser C γ),
    both (both p q) r = map (fun x => ((x.1, x.2.1), x.2.2)) (both p (both q r))
  /-- There is a series of any parsers. -/
  series_exists : ∀ (first : Part C) more,
    ∃ (α : Type) (series : Series C α), series.parts = first :: more
  series_ok_iff : ∀ {α : Type} (series : Series C α) c st x d s,
    series.parser c st = some (.ok (x, d), s) ↔ InTurn series.parts c st (series.values x) d s
  series_error_iff : ∀ {α : Type} (series : Series C α) c st e s,
    series.parser c st = some (.error e, s) ↔
      UpTo (fun p d t => p.2 d t = some (.error e, s)) series.parts c st
  series_none_iff : ∀ {α : Type} (series : Series C α) c st,
    series.parser c st = none ↔ UpTo (fun p d t => p.2 d t = none) series.parts c st
  /-- Continuations that build their parsers anew are continuations as any other ones. -/
  grammar_pure_bind : ∀ {τ σ : Type} [Input C τ σ] [Token τ] [ToValue τ] [ToValue σ]
    (call : Reference → Parser C Value) v k a,
    (Grammar.bind (.pure v) k).parser call a = (Grammar.fresh (k v)).parser call a
  grammar_bind_pure : ∀ {τ σ : Type} [Input C τ σ] [Token τ] [ToValue τ] [ToValue σ]
    (call : Reference → Parser C Value) g a, (Grammar.bind g .pure).parser call a = g.parser call a
  grammar_bind_assoc : ∀ {τ σ : Type} [Input C τ σ] [Token τ] [ToValue τ] [ToValue σ]
    (call : Reference → Parser C Value) g k l a, (Grammar.bind (.bind g k) l).parser call a =
      (Grammar.bind g fun v => .bind (k v) l).parser call a
  /-- Sequences of grammars are among the series. -/
  grammar_sequence : ∀ {τ σ : Type} [Input C τ σ] [Token τ] [ToValue τ] [ToValue σ]
    (call : Reference → Parser C Value) g more a,
    ∃ (α : Type) (series : Series C α) (f : α → Value),
      (Grammar.sequence g more).parser call a = map f series.parser ∧
      Forall₂ (fun h p => ∃ b, p = ⟨Value, h.parser call b⟩) (g :: more) series.parts ∧
      ∀ x, ∃ v vs, series.values x = (v :: vs).map (Sigma.mk Value) ∧ f x = vs.foldl .pair v

theorem sequencingLaws (C : Type) : SequencingLaws C where
  pure_bind := pure_bind
  bind_pure := bind_pure
  bind_assoc := bind_assoc
  map_eq := map_eq_bind
  replace_eq w := map_eq_bind fun _ => w
  both_eq := both_eq_bind
  seqRight_eq := seqRight_eq_bind
  seqLeft_eq := seqLeft_eq_bind
  apply_eq := apply_eq_bind
  apply_identity p := by
    rw [apply_eq_bind, pure_bind]
    exact bind_pure p
  apply_homomorphism f v := by rw [apply_eq_bind, pure_bind, pure_bind]
  apply_interchange p v := by simp only [apply_eq_bind, pure_bind]
  apply_composition p q r := by simp only [apply_eq_bind, bind_assoc, pure_bind, Function.comp]
  both_assoc p q r := by simp only [both_eq_bind, map_eq_bind, bind_assoc, pure_bind]
  series_exists := Series.exists_parts
  series_ok_iff _ _ _ _ _ _ := Series.parser_ok_iff
  series_error_iff _ _ _ _ _ := Series.parser_error_iff
  series_none_iff _ _ _ := Series.parser_none_iff
  grammar_pure_bind := Grammar.parser_pure_bind
  grammar_bind_pure := Grammar.parser_bind_pure
  grammar_bind_assoc := Grammar.parser_bind_bind
  grammar_sequence := Grammar.parser_sequence

end Parser

end Packrat

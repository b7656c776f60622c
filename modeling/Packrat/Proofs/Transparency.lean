import Packrat.Proofs.Sound

/-!
# Memoisation is transparent

A grammar run from a sound state and the plain grammar at the same cursor: where
one of them gives a result, the other one gives it too. The two directions are
proved side by side, since a stored result is one that the plain grammar yields,
and storing a result needs that it does.

* `Coupling.caching`, `Coupling.cached`: the state is sound on the side of the
  grammar that stores results, and of no concern on the plain side;
* `Coupling.parser_transparent`: storing results changes none that a grammar gives, by
  induction on the grammar;
* `Coupling.level_transparent`: nor any that a name gives, by induction on the depth;
* `Program.Sound.part_sound`: a run of a part of an expression;
* `Program.Sound.parser_iff`: a whole run.
-/

namespace Packrat

open Input List

section

variable {C τ σ : Type} [Input C τ σ] [InputView C τ σ] [Token τ] [ToValue τ] [ToValue σ]

/-! ## A sound state on one side -/

/-- Runs from a start of a grammar that stores its results, beside runs of the
plain grammar. -/
def Coupling.caching (P : Program) (memory : Nat → List τ) (start : C) [LawfulInput C]
    (root : Grammar) : Coupling (.diagonal C) where
  within c := InMemory memory c ∧ ∃ tokens, Reads start tokens c
  state st _ := P.Sound memory root st
  record _ _ := True
  within_reads := by
    rintro c c' t ⟨hMemory, s, hs⟩ ht
    exact ⟨ht.inMemory hMemory, s ++ t, hs.trans ht⟩
  note h _ := h.note _
  tally name h := h.tally name
  backtracked _ _ _ := trivial
  stalled _ _ := trivial

/-- The same the other way round. -/
def Coupling.cached (P : Program) (memory : Nat → List τ) (start : C) [LawfulInput C]
    (root : Grammar) : Coupling (.diagonal C) where
  within c := InMemory memory c ∧ ∃ tokens, Reads start tokens c
  state _ st := P.Sound memory root st
  record _ _ := True
  within_reads := by
    rintro c c' t ⟨hMemory, s, hs⟩ ht
    exact ⟨ht.inMemory hMemory, s ++ t, hs.trans ht⟩
  note h _ := h.note _
  tally name h := h.tally name
  backtracked _ _ _ := trivial
  stalled _ _ := trivial

variable [LawfulInput C] {α β : Type} {V : α → β → Prop} {P : Program}
  {memory : Nat → List τ} {start : C} {root root' g : Grammar} {c : C} {r : Result C Value}
  {m n : Nat}

namespace Coupling

theorem caching_run {p : Parser C α} {q : Parser C β} {st s : State C} {r : Result C α}
    (h : (caching P memory start root).Simulates V p q)
    (hWithin : (caching P memory start root).within c) (hSound : P.Sound memory root st)
    (hRun : p c st = some (r, s)) (st' : State C) :
    ∃ r' s', q c st' = some (r', s') ∧ (Alignment.diagonal C).Outcome V c c r r' ∧
      P.Sound memory root s := by
  have hState : (caching P memory start root).state st st' := hSound
  exact h hWithin rfl hState hRun

theorem cached_run {p : Parser C α} {q : Parser C β} {st s st' : State C} {r : Result C α}
    (h : (cached P memory start root).Simulates V p q)
    (hWithin : (cached P memory start root).within c) (hRun : p c st = some (r, s))
    (hSound : P.Sound memory root st') :
    ∃ r' s', q c st' = some (r', s') ∧ (Alignment.diagonal C).Outcome V c c r r' ∧
      P.Sound memory root s' := by
  have hState : (cached P memory start root).state st st' := hSound
  exact h hWithin rfl hState hRun

/-! ## Fresh scopes -/

theorem caching_inFreshScope {p : Parser C α} {q : Parser C β}
    (h : (caching P memory start root').Simulates V p q) :
    (caching P memory start root).Simulates V (.inFreshScope p) q := by
  intro c d st st' hWithin hCursor hSound r s hRun
  obtain rfl : c = d := hCursor
  obtain ⟨s₁, hp, rfl⟩ := Parser.inFreshScope_eq_some_iff.mp hRun
  obtain ⟨r', s', hq, hOut, hSound'⟩ := caching_run h hWithin hSound.fresh hp st'
  exact ⟨r', s', hq, hOut, hSound.restore hSound'⟩

theorem cached_inFreshScope {p : Parser C α} {q : Parser C β}
    (h : (cached P memory start root').Simulates V p q) :
    (cached P memory start root).Simulates V p (.inFreshScope q) := by
  intro c d st st' hWithin hCursor hSound r s hRun
  obtain rfl : c = d := hCursor
  obtain ⟨r', s', hq, hOut, hSound'⟩ := cached_run h hWithin hRun (Program.Sound.fresh hSound)
  exact ⟨r', _, Parser.inFreshScope_eq_some_iff.mpr ⟨s', hq, rfl⟩, hOut, hSound.restore hSound'⟩

/-- On the plain side a fresh scope makes no difference. -/
theorem caching_inFreshScope_plain {p : Parser C α} {q : Parser C β}
    (h : (caching P memory start root).Simulates V p q) :
    (caching P memory start root).Simulates V p (.inFreshScope q) := by
  intro c d st st' hWithin hCursor hSound r s hRun
  obtain rfl : c = d := hCursor
  obtain ⟨r', s', hq, hOut, hSound'⟩ :=
    caching_run h hWithin hSound hRun { st' with current := ∅ }
  exact ⟨r', _, Parser.inFreshScope_eq_some_iff.mpr ⟨s', hq, rfl⟩, hOut, hSound'⟩

theorem cached_inFreshScope_plain {p : Parser C α} {q : Parser C β}
    (h : (cached P memory start root).Simulates V p q) :
    (cached P memory start root).Simulates V (.inFreshScope p) q := by
  intro c d st st' hWithin hCursor hSound r s hRun
  obtain rfl : c = d := hCursor
  obtain ⟨s₁, hp, rfl⟩ := Parser.inFreshScope_eq_some_iff.mp hRun
  obtain ⟨r', s', hq, hOut, hSound'⟩ := cached_run h hWithin hp hSound
  exact ⟨r', s', hq, hOut, hSound'⟩

/-- What a plain parser simulates in turn is given too. -/
theorem caching_trans {p q q' : Parser C Value}
    (h : (caching P memory start root).Simulates Eq p q)
    (h' : (free (.diagonal C) start).Simulates Eq q q') :
    (caching P memory start root).Simulates Eq p q' := by
  intro c d st st' hWithin hCursor hSound r s hRun
  obtain rfl : c = d := hCursor
  obtain ⟨r₁, s₁, hRun₁, hOut, hSound₁⟩ := caching_run h hWithin hSound hRun st'
  obtain ⟨s₂, hRun₂, -⟩ := free_run h' hWithin.2.choose_spec hRun₁ st'
  exact ⟨r₁, s₂, hRun₂, hOut, hSound₁⟩

/-! ## Stored results -/

variable [LawfulToken τ]

/-- A stored result is what the plain grammar yields, and so is a result that is
stored. -/
theorem caching_memo {a b : Address} {p : Parser C Value} (hAt : P.At root a (.memo g))
    (hDeep : P.names.length * (left start + 1) ≤ n)
    (h : (caching P memory start root).Simulates Eq p (g.plain.parser (P.plain.level n) b)) :
    (caching P memory start root).Simulates Eq (.memo a p)
      (g.plain.parser (P.plain.level n) b) := by
  intro c d st st' hWithin hCursor hSound r s hRun
  obtain rfl : c = d := hCursor
  rcases Parser.memo_eq_some_iff.mp hRun with ⟨hLookup, rfl⟩ | ⟨-, s₁, hp, rfl⟩
  · obtain ⟨g', hStored, hYields⟩ := hSound hWithin.1 hLookup
    rw [hAt.stored?_eq] at hStored
    cases hStored
    obtain ⟨s', hRun'⟩ := hYields.run hWithin.2.choose_spec hDeep b st'
    exact ⟨_, s', hRun', hYields.outcome, hSound.note _⟩
  · obtain ⟨r', s', hq, hOut, hSound'⟩ := caching_run h hWithin hSound hp st'
    obtain rfl := hOut.eq
    exact ⟨_, s', hq, hOut, hSound'.store hAt.stored?_eq hWithin.1 (Program.yields_of_run hq)⟩

/-- Where the plain grammar gives a result, it is the one that is stored, if there
is one. -/
theorem cached_memo {a b : Address} {p : Parser C Value} (hAt : P.At root a (.memo g))
    (h : (cached P memory start root).Simulates Eq (g.plain.parser (P.plain.level n) b) p) :
    (cached P memory start root).Simulates Eq (g.plain.parser (P.plain.level n) b)
      (.memo a p) := by
  intro c d st st' hWithin hCursor hSound r s hRun
  obtain rfl : c = d := hCursor
  have hYields := Program.yields_of_run hRun
  rcases hLookup : st'.lookup a (place c) with _ | r₁
  · obtain ⟨r', s', hp, hOut, hSound'⟩ := cached_run h hWithin hRun hSound
    obtain rfl := hOut.eq
    exact ⟨_, _, Parser.memo_eq_some_iff.mpr (.inr ⟨hLookup, s', hp, rfl⟩), hOut,
      hSound'.store hAt.stored?_eq hWithin.1 hYields⟩
  · obtain ⟨g', hStored, hYields'⟩ := hSound hWithin.1 hLookup
    rw [hAt.stored?_eq] at hStored
    cases hStored
    obtain rfl := hYields.unique hYields'
    exact ⟨_, _, Parser.memo_eq_some_iff.mpr (.inl ⟨hLookup, rfl⟩), hYields.outcome,
      Program.Sound.note hSound _⟩

/-! ## Grammars -/

/-- A parser from a sound state beside a plain one: the plain one gives what the
parser gives if it follows references deeply enough, as it does in `deep`, and the
parser gives what the plain one does as deeply, as it is in `plain`. -/
structure Transparent (P : Program) (memory : Nat → List τ) (start : C) (root : Grammar)
    (p deep plain : Parser C Value) : Prop where
  sound : (caching P memory start root).Simulates Eq p deep
  complete : (cached P memory start root).Simulates Eq plain p

/-- Storing results changes none, by induction on the grammar. The address of each
part is known, and where a fresh scope begins, the part is the root of it. -/
theorem parser_transparent (hDeep : P.names.length * (left start + 1) ≤ n)
    (hCall : ∀ root r, Transparent P memory start root (P.level m r) (P.plain.level n r)
      (P.plain.level m r)) (g : Grammar) :
    ∀ b ⦃root a⦄, P.At root a g → Transparent P memory start root
      (g.parser (P.level m) a) (g.plain.parser (P.plain.level n) b)
      (g.plain.parser (P.plain.level m) b) := by
  have hEq := Value.Congruence.eq
  have hTests := (Alignment.diagonal C).tests_toChar
  induction g with
  | pure v => exact fun _ _ _ _ => ⟨.pure rfl, .pure rfl⟩
  | satisfy test =>
    have h {K : Coupling (.diagonal C)} := Simulates.satisfy (K := K) (hTests test)
    exact fun _ _ _ _ => ⟨h.map fun hv => congrArg _ hv.1, h.map fun hv => congrArg _ hv.1⟩
  | skipIf test =>
    have h {K : Coupling (.diagonal C)} := Simulates.skipIf (K := K) (hTests test)
    exact fun _ _ _ _ => ⟨h.replace rfl, h.replace rfl⟩
  | endOfInput =>
    exact fun _ _ _ _ => ⟨Simulates.endOfInput.replace rfl, Simulates.endOfInput.replace rfl⟩
  | take k =>
    have h {K : Coupling (.diagonal C)} := Simulates.take (K := K) k
    exact fun _ _ _ _ => ⟨h.map Alignment.Slices.value, h.map Alignment.Slices.value⟩
  | takeWhile test =>
    have h {K : Coupling (.diagonal C)} := Simulates.takeWhile (K := K) (hTests test)
    exact fun _ _ _ _ => ⟨h.map Alignment.Slices.value, h.map Alignment.Slices.value⟩
  | takeWhile1 test =>
    have h {K : Coupling (.diagonal C)} := Simulates.takeWhile1 (K := K) (hTests test)
    exact fun _ _ _ _ => ⟨h.map Alignment.Slices.value, h.map Alignment.Slices.value⟩
  | skipWhile test =>
    have h {K : Coupling (.diagonal C)} := Simulates.skipWhile (K := K) (hTests test)
    exact fun _ _ _ _ => ⟨h.replace rfl, h.replace rfl⟩
  | literal text =>
    have h {K : Coupling (.diagonal C)} := Simulates.literal (K := K) text
    exact fun _ _ _ _ => ⟨h.map (congrArg _), h.map (congrArg _)⟩
  | literalAnyCase text =>
    have h {K : Coupling (.diagonal C)} := Simulates.literalAnyCase (K := K) text
    exact fun _ _ _ _ => ⟨h.map Alignment.Slices.value, h.map Alignment.Slices.value⟩
  | map f g ih =>
    intro b root a hAt
    obtain ⟨hSound, hComplete⟩ := ih b hAt
    exact ⟨hSound.map (congrArg f), hComplete.map (congrArg f)⟩
  | convert name reason f g ih =>
    intro b root a hAt
    obtain ⟨hSound, hComplete⟩ := ih b hAt
    have hValue : ∀ {v w}, v = w → Option.Rel Eq (f v) (f w) := fun h => h ▸ hEq.refl_option _
    exact ⟨hSound.convert name reason hValue, hComplete.convert name reason hValue⟩
  | both g h ihg ihh =>
    intro b root a hAt
    obtain ⟨hSound, hComplete⟩ := ihg (b.turn .left) (hAt.turn .left fun _ => rfl)
    obtain ⟨hSound', hComplete'⟩ := ihh (b.turn .right) (hAt.turn .right fun _ => rfl)
    exact ⟨(hSound.both hSound').map fun hv => hEq.pair hv.1 hv.2,
      (hComplete.both hComplete').map fun hv => hEq.pair hv.1 hv.2⟩
  | seqRight g h ihg ihh =>
    intro b root a hAt
    obtain ⟨hSound, hComplete⟩ := ihg (b.turn .left) (hAt.turn .left fun _ => rfl)
    obtain ⟨hSound', hComplete'⟩ := ihh (b.turn .right) (hAt.turn .right fun _ => rfl)
    exact ⟨hSound.seqRight hSound', hComplete.seqRight hComplete'⟩
  | seqLeft g h ihg ihh =>
    intro b root a hAt
    obtain ⟨hSound, hComplete⟩ := ihg (b.turn .left) (hAt.turn .left fun _ => rfl)
    obtain ⟨hSound', hComplete'⟩ := ihh (b.turn .right) (hAt.turn .right fun _ => rfl)
    exact ⟨hSound.seqLeft hSound', hComplete.seqLeft hComplete'⟩
  | apply g h ihg ihh =>
    intro b root a hAt
    obtain ⟨hSound, hComplete⟩ := ihg (b.turn .left) (hAt.turn .left fun _ => rfl)
    obtain ⟨hSound', hComplete'⟩ := ihh (b.turn .right) (hAt.turn .right fun _ => rfl)
    exact ⟨((hSound.map (congrArg Value.call)).both hSound').map fun hv => congr hv.1 hv.2,
      ((hComplete.map (congrArg Value.call)).both hComplete').map fun hv => congr hv.1 hv.2⟩
  | bind g k ihg ihk =>
    intro b root a hAt
    obtain ⟨hSound, hComplete⟩ := ihg b hAt
    refine ⟨hSound.bind ?_, hComplete.bind ?_⟩
    · rintro v _ rfl
      exact caching_inFreshScope (caching_inFreshScope_plain (ihk v .fresh .fresh).sound)
    · rintro v _ rfl
      exact cached_inFreshScope (cached_inFreshScope_plain (ihk v .fresh .fresh).complete)
  | orElse g h ihg ihh =>
    intro b root a hAt
    obtain ⟨hSound, hComplete⟩ := ihg (b.turn .left) (hAt.turn .left fun _ => rfl)
    obtain ⟨hSound', hComplete'⟩ := ihh (b.turn .right) (hAt.turn .right fun _ => rfl)
    exact ⟨hSound.orElse hSound', hComplete.orElse hComplete'⟩
  | label name g ih =>
    intro b root a hAt
    obtain ⟨hSound, hComplete⟩ := ih b hAt
    exact ⟨hSound.label name, hComplete.label name⟩
  | lexeme name g ih =>
    intro b root a hAt
    obtain ⟨hSound, hComplete⟩ := ih b hAt
    exact ⟨hSound.lexeme name, hComplete.lexeme name⟩
  | optional g ih =>
    intro b root a hAt
    obtain ⟨hSound, hComplete⟩ := ih b hAt
    exact ⟨hSound.optional.map hEq.optional, hComplete.optional.map hEq.optional⟩
  | option v g ih =>
    intro b root a hAt
    obtain ⟨hSound, hComplete⟩ := ih b hAt
    exact ⟨hSound.option rfl, hComplete.option rfl⟩
  | marked v g h ihg ihh =>
    intro b root a hAt
    obtain ⟨hSound, hComplete⟩ := ihg (b.turn .left) (hAt.turn .left fun _ => rfl)
    obtain ⟨hSound', hComplete'⟩ := ihh (b.turn .right) (hAt.turn .right fun _ => rfl)
    exact ⟨hSound.marked hSound' rfl, hComplete.marked hComplete' rfl⟩
  | notFollowedBy g ih =>
    intro b root a hAt
    obtain ⟨hSound, hComplete⟩ := ih b hAt
    exact ⟨hSound.notFollowedBy.replace rfl, hComplete.notFollowedBy.replace rfl⟩
  | many g ih =>
    intro b root a hAt
    obtain ⟨hSound, hComplete⟩ := ih b hAt
    exact ⟨hSound.many.map hEq.list, hComplete.many.map hEq.list⟩
  | many1 g ih =>
    intro b root a hAt
    obtain ⟨hSound, hComplete⟩ := ih b hAt
    exact ⟨hSound.many1.map hEq.list, hComplete.many1.map hEq.list⟩
  | skipMany g ih =>
    intro b root a hAt
    obtain ⟨hSound, hComplete⟩ := ih b hAt
    exact ⟨hSound.skipMany.replace rfl, hComplete.skipMany.replace rfl⟩
  | skipMany1 g ih =>
    intro b root a hAt
    obtain ⟨hSound, hComplete⟩ := ih b hAt
    exact ⟨hSound.skipMany1.replace rfl, hComplete.skipMany1.replace rfl⟩
  | memo g ih =>
    intro b root a hAt
    obtain ⟨hSound, hComplete⟩ := ih b (hAt.turn .inside fun _ => rfl)
    exact ⟨caching_memo (g := g) hAt hDeep hSound, cached_memo (g := g) hAt hComplete⟩
  | fresh g ih =>
    intro b root a _
    obtain ⟨hSound, hComplete⟩ := ih b .fresh
    exact ⟨caching_inFreshScope hSound, cached_inFreshScope hComplete⟩
  | call r => exact fun _ _ _ _ => hCall _ r
  | tally name g ih =>
    intro b root a hAt
    obtain ⟨hSound, hComplete⟩ := ih b hAt
    exact ⟨hSound.tally name, hComplete.tally name⟩

/-! ## Names -/

variable (memory) in
/-- Storing results changes none that a name gives, by induction on the depth. The
plain names are followed one deeper than needed first, and then less deeply, since
they are settled. -/
theorem level_transparent (hDeep : P.names.length * (left start + 1) ≤ n) (m : Nat) :
    ∀ root r, Transparent P memory start root (P.level m r) (P.plain.level n r)
      (P.plain.level m r) := by
  induction m with
  | zero => exact fun root r => ⟨.silent, .silent⟩
  | succ m ih =>
    intro root r
    suffices h : Transparent P memory start root (P.level (m + 1) r) (P.plain.level (n + 1) r)
        (P.plain.level (m + 1) r) from
      ⟨caching_trans h.sound (P.settled_depth start hDeep r), h.complete⟩
    cases r with
    | rule name =>
      have hPlain := lookup_map Grammar.plain P.rules name
      rcases hLookup : P.rules.lookup name with _ | g
      · simp only [Program.level, hLookup]
        exact ⟨.silent, by simp only [Program.plain, hPlain, hLookup]; exact .silent⟩
      · have h := parser_transparent hDeep ih g .fresh .fresh
        simp only [Program.level, hLookup, Program.plain, hPlain, Option.map_some]
        exact ⟨caching_inFreshScope (caching_inFreshScope_plain h.sound),
          cached_inFreshScope (cached_inFreshScope_plain h.complete)⟩
    | shared name =>
      have hPlain := lookup_map Grammar.plain P.shared name
      rcases hLookup : P.shared.lookup name with _ | g
      · simp only [Program.level, hLookup]
        exact ⟨.silent, by simp only [Program.plain, hPlain, hLookup]; exact .silent⟩
      · simp only [Program.level, hLookup, Program.plain, hPlain, Option.map_some]
        exact parser_transparent hDeep ih g (.named name) (.named hLookup)

end Coupling

/-! ## Runs -/

namespace Program.Sound

variable [LawfulToken τ] {st s : State C} {a : Address}

/-- From a sound state, what a part of the expression gives is what the plain grammar yields,
and the state stays sound. -/
theorem part_sound (hSound : P.Sound memory root st) (hAt : P.At root a g)
    (hMemory : InMemory memory c) (hRun : g.parser (P.level m) a c st = some (r, s)) :
    P.Yields g c r ∧ P.Sound memory root s := by
  have hDeep := Nat.le_refl (P.names.length * (left c + 1))
  have hCall := Coupling.level_transparent memory hDeep m
  have h := Coupling.parser_transparent hDeep hCall g .fresh hAt
  obtain ⟨r', s', hPlain, hOut, hSound'⟩ :=
    Coupling.caching_run h.sound ⟨hMemory, [], .refl c⟩ hSound hRun {}
  obtain rfl := hOut.eq
  exact ⟨yields_of_run hPlain, hSound'⟩

/-- From a sound state, what a grammar gives is what the plain one yields, and the
state stays sound. -/
theorem parser_sound (hSound : P.Sound memory root st) (hMemory : InMemory memory c)
    (hRun : Parser.inFreshScope (g.parser (P.level m) .fresh) c st = some (r, s)) :
    P.Yields g c r ∧ P.Sound memory root s := by
  obtain ⟨s₁, hPart, rfl⟩ := Parser.inFreshScope_eq_some_iff.mp hRun
  obtain ⟨hYields, hSound'⟩ := hSound.fresh.part_sound .fresh hMemory hPart
  exact ⟨hYields, hSound.restore hSound'⟩

/-- From a sound state, what the plain grammar yields is given at the depth of a
run. -/
theorem parser_complete (hSound : P.Sound memory root st) (hMemory : InMemory memory c)
    (hYields : P.Yields g c r) : ∃ s, P.parser g c st = some (r, s) := by
  have hDeep : P.names.length * (left c + 1) ≤ P.depth c := by
    rw [depth_eq]
    exact Nat.le_succ _
  have hCall := Coupling.level_transparent memory hDeep (P.depth c)
  have h := Coupling.parser_transparent hDeep hCall g .fresh .fresh
  obtain ⟨s₀, hPlain⟩ := hYields.run (.refl c) hDeep .fresh {}
  obtain ⟨r', s', hRun, hOut, -⟩ :=
    Coupling.cached_run (Coupling.cached_inFreshScope h.complete) ⟨hMemory, [], .refl c⟩ hPlain
      hSound
  obtain rfl := hOut.eq
  exact ⟨s', hRun⟩

/-- A run from a sound state gives what the plain grammar yields, and nothing
where that yields nothing. -/
theorem parser_iff (hSound : P.Sound memory root st) (hMemory : InMemory memory c) :
    (∃ s, P.parser g c st = some (r, s)) ↔ P.Yields g c r := by
  constructor
  · rintro ⟨s, hRun⟩
    exact (hSound.parser_sound hMemory hRun).1
  · exact hSound.parser_complete hMemory

end Program.Sound

end

end Packrat

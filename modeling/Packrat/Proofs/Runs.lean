import Packrat.Input.Lawful
import Packrat.Parser.Choice
import Packrat.Parser.Repeat

/-!
# Runs

A parser at a cursor is a run, which depends on the state alone. A run is made of the
runs of its parts: one of them ends with a result, and its result leads to the next
one. Every way to build a parser is an equation between runs.

* `Run`, `Run.stop`, `Run.followedBy`, `Run.noting`: runs and how they are made;
* `Parser.onResult_eq`, `Parser.bind_eq`, `Parser.orElse_eq` and the like: the run of a
  parser in terms of those of its parts;
* `Parser.fold_eq_map_many`, `Parser.fold1_eq_map_many1`: every repetition is one that
  collects the values, with the values combined afterwards;
* `Parser.many_eq`, `Parser.many1_eq`: one round of a repetition, and the repetition
  again.
-/

namespace Packrat

open Input

/-- A parser at a cursor: what it gives, by the state in which it starts. -/
abbrev Run (C α : Type) := State C → Option (Result C α × State C)

variable {C τ σ α β γ : Type} {c : C}

/-! ## Results -/

namespace Result

/-- What is made of a failure, and what of a value with the cursor after it. -/
def cases (failed : ParseError C → γ) (succeeded : α → C → γ) : Result C α → γ
  | .error e => failed e
  | .ok (v, d) => succeeded v d

@[simp]
theorem cases_error (failed : ParseError C → γ) (succeeded : α → C → γ) (e : ParseError C) :
    cases failed succeeded (.error e) = failed e := rfl

@[simp]
theorem cases_ok (failed : ParseError C → γ) (succeeded : α → C → γ) (v : α) (d : C) :
    cases failed succeeded (.ok (v, d)) = succeeded v d := rfl

/-- A function applied to the value. -/
def map (f : α → β) : Result C α → Result C β :=
  cases .error fun v d => .ok (f v, d)

/-- A function applied to the failure. -/
def mapError (f : ParseError C → ParseError C) : Result C α → Result C α :=
  cases (fun e => .error (f e)) fun v d => .ok (v, d)

/-- A value at a cursor, or a failure where there is none. -/
def ofOption (failure : ParseError C) (d : C) : Option α → Result C α
  | some v => .ok (v, d)
  | none => .error failure

theorem map_map (f : α → β) (g : β → γ) (r : Result C α) : map g (map f r) = map (g ∘ f) r := by
  rcases r with e | ⟨v, d⟩ <;> rfl

theorem map_id' (r : Result C α) : map (fun v => v) r = r := by
  rcases r with e | ⟨v, d⟩ <;> rfl

end Result

/-- A value comes with a cursor that is reached by reading. -/
def Result.From [Input C τ σ] [InputView C τ σ] (c : C) : Result C α → Prop :=
  cases (fun _ => True) fun _ d => ∃ tokens, Reads c tokens d

theorem Result.From.map [Input C τ σ] [InputView C τ σ] {r : Result C α} (h : r.From c)
    (f : α → β) : (r.map f).From c := by
  rcases r with e | ⟨v, d⟩ <;> exact h

theorem Result.From.mapError [Input C τ σ] [InputView C τ σ] {r : Result C α} (h : r.From c)
    (f : ParseError C → ParseError C) : (r.mapError f).From c := by
  rcases r with e | ⟨v, d⟩ <;> exact h

/-- What is read when a cursor is moved on is taken off what is left. -/
theorem Reads.left_lt [Input C τ σ] [InputView C τ σ] [Token τ] [LawfulInput C] {d : C}
    {tokens : List τ} (h : Reads c tokens d) (hLt : position c < position d) :
    left d < left c := by
  have hPosition := h.position_eq
  have hLeft := h.left_eq
  omega

/-! ## Runs -/

namespace Run

/-- End with a result. -/
def stop (r : Result C α) : Run C α :=
  fun st => some (r, st)

/-- A run, and then the one that its result leads to. -/
def followedBy (x : Run C α) (next : Result C α → Run C β) : Run C β :=
  fun st => (x st).bind fun y => next y.1 y.2

/-- A run after an entry of the record. -/
def noting (entry : Record) (x : Run C α) : Run C α :=
  fun st => x (st.note entry)

/-- A run can end with a result. -/
def Gives (x : Run C α) (r : Result C α) : Prop :=
  ∃ st s, x st = some (r, s)

variable {x : Run C α} {next : Result C α → Run C β} {st s : State C} {r : Result C β}

theorem followedBy_eq_some_iff : x.followedBy next st = some (r, s) ↔
    ∃ r₁ s₁, x st = some (r₁, s₁) ∧ next r₁ s₁ = some (r, s) := by
  unfold followedBy
  rw [Option.bind_eq_some_iff]
  constructor
  · rintro ⟨⟨r₁, s₁⟩, hx, hNext⟩
    exact ⟨r₁, s₁, hx, hNext⟩
  · rintro ⟨r₁, s₁, hx, hNext⟩
    exact ⟨(r₁, s₁), hx, hNext⟩

theorem stop_followedBy (r : Result C α) : (stop r).followedBy next = next r := rfl

theorem followedBy_stop (x : Run C α) : x.followedBy stop = x := by
  funext st
  unfold followedBy stop
  rcases x st with _ | ⟨r, s⟩ <;> rfl

theorem followedBy_assoc (after : Result C β → Run C γ) :
    (x.followedBy next).followedBy after = x.followedBy fun r => (next r).followedBy after := by
  funext st
  unfold followedBy
  rcases x st with _ | y <;> rfl

theorem followedBy_congr {next' : Result C α → Run C β} (h : ∀ r, x.Gives r → next r = next' r) :
    x.followedBy next = x.followedBy next' := by
  funext st
  unfold followedBy
  rcases hx : x st with _ | ⟨r, s⟩
  · rfl
  · simp only [Option.bind_some, h r ⟨st, s, hx⟩]

end Run

/-! ## Parsers -/

namespace Parser

open Run

variable {p : Parser C α}

theorem onResult_eq (f : C → Result C α → Result C β) (p : Parser C α) :
    onResult f p c = followedBy (p c) fun r => stop (f c r) := by
  funext st
  unfold onResult followedBy stop
  rcases p c st with _ | ⟨r, s⟩ <;> rfl

theorem map_eq (f : α → β) (p : Parser C α) :
    map f p c = followedBy (p c) fun r => stop (Result.map f r) := by
  unfold map
  rw [onResult_eq]
  congr 1
  funext r
  rcases r with e | ⟨v, d⟩ <;> rfl

/-- A parser whose result is worked over, and its value then. -/
theorem map_onResult_eq {f : C → Result C α → Result C β} (g : β → γ)
    {failed : ParseError C → Result C γ} {succeeded : α → C → Result C γ}
    (hFailed : ∀ e, Result.map g (f c (.error e)) = failed e)
    (hSucceeded : ∀ v d, Result.map g (f c (.ok (v, d))) = succeeded v d) :
    map g (onResult f p) c = followedBy (p c) fun r => stop (Result.cases failed succeeded r) := by
  rw [map_eq, onResult_eq, followedBy_assoc]
  congr 1
  funext r
  rcases r with e | ⟨v, d⟩
  · rw [stop_followedBy, hFailed]
    rfl
  · rw [stop_followedBy, hSucceeded]
    rfl

theorem onResult_eq_cases {f : C → Result C α → Result C β}
    {failed : ParseError C → Result C β} {succeeded : α → C → Result C β}
    (hFailed : ∀ e, f c (.error e) = failed e)
    (hSucceeded : ∀ v d, f c (.ok (v, d)) = succeeded v d) :
    onResult f p c = followedBy (p c) fun r => stop (Result.cases failed succeeded r) := by
  rw [onResult_eq]
  congr 1
  funext r
  rcases r with e | ⟨v, d⟩
  · rw [hFailed]
    rfl
  · rw [hSucceeded]
    rfl

theorem label_eq (name : String) (p : Parser C α) :
    label name p c = followedBy (p c) fun r => stop (Result.mapError (·.expecting name) r) :=
  onResult_eq_cases (fun _ => rfl) fun _ _ => rfl

theorem option_eq (default : α) (p : Parser C α) :
    option default p c = followedBy (p c) fun r =>
      stop (Result.cases (fun _ => .ok (default, c)) (fun v d => .ok (v, d)) r) :=
  onResult_eq_cases (fun _ => rfl) fun _ _ => rfl

theorem map_optional_eq (f : Option α → β) (p : Parser C α) :
    map f (optional p) c = followedBy (p c) fun r =>
      stop (Result.cases (fun _ => .ok (f none, c)) (fun v d => .ok (f (some v), d)) r) :=
  map_onResult_eq f (fun _ => rfl) fun _ _ => rfl

theorem bind_eq (p : Parser C α) (f : α → Parser C β) :
    bind p f c = followedBy (p c) (Result.cases (fun e => stop (.error e)) f) := by
  funext st
  unfold bind followedBy
  rcases p c st with _ | ⟨e | ⟨v, d⟩, s⟩ <;> rfl

theorem bind_map_eq (f : α → β) (p : Parser C α) (k : β → Parser C γ) :
    bind (map f p) k = bind p fun v => k (f v) := by
  funext c
  rw [bind_eq, bind_eq, map_eq, followedBy_assoc]
  congr 1
  funext r
  rcases r with e | ⟨v, d⟩ <;> rfl

/-- Two parsers one after the other, with the pair of their values worked over. -/
theorem map_both_eq (f : α × β → γ) (p : Parser C α) (q : Parser C β) :
    map f (both p q) = bind p fun v => map (fun w => f (v, w)) q := by
  funext c st
  unfold map both bind onResult
  rcases hp : p c st with _ | ⟨e | ⟨v, d⟩, s⟩
  · simp [hp]
  · simp [hp]
  · rcases hq : q d s with _ | ⟨e | ⟨w, d'⟩, s'⟩ <;> simp [hp, hq]

/-- Two parsers one after the other, with a function of the first value applied to the
second. -/
theorem apply_map_eq (f : α → β → γ) (p : Parser C α) (q : Parser C β) :
    apply (map f p) q = map (fun pair => f pair.1 pair.2) (both p q) := by
  unfold apply
  rw [map_both_eq, map_both_eq, bind_map_eq]

theorem marked_eq (default : β) (p : Parser C α) (q : Parser C β) :
    marked default p q c = followedBy (p c)
      (Result.cases (fun _ => stop (.ok (default, c))) fun _ d => q d) := by
  funext st
  unfold marked followedBy
  rcases p c st with _ | ⟨e | ⟨v, d⟩, s⟩ <;> rfl

variable [Input C τ σ]

theorem lexeme_eq (name : String) (p : Parser C α) :
    lexeme name p c = followedBy (p c) fun r =>
      stop (Result.mapError (fun e => (e.moveTo c).expecting name) r) :=
  onResult_eq_cases (fun _ => rfl) fun _ _ => rfl

theorem convert_eq (name : String) (reason : Reason) (f : α → Option β) (p : Parser C α) :
    convert name reason f p c = followedBy (p c) fun r =>
      stop (Result.cases .error
        (fun v d => .ofOption ((ParseError.new c reason).expecting name) d (f v)) r) :=
  onResult_eq_cases (fun _ => rfl) fun v d => by
    dsimp only
    rcases f v with _ | w <;> rfl

theorem replace_notFollowedBy_eq (w : β) (p : Parser C α) :
    replace w (notFollowedBy p) c = followedBy (p c) fun r =>
      stop (Result.cases (fun _ => .ok (w, c)) (fun _ _ => .error (.new c .unwantedMatch)) r) :=
  map_onResult_eq _ (fun _ => rfl) fun _ _ => rfl

theorem orElse_eq (p q : Parser C α) :
    orElse p q c = followedBy (p c) (Result.cases
      (fun e => noting (.backtracked (position c) e.position)
        (followedBy (q c) fun r => stop (Result.mapError (e.merge · c) r)))
      fun v d => stop (.ok (v, d))) := by
  funext st
  unfold orElse followedBy
  rcases p c st with _ | ⟨e | ⟨v, d⟩, s⟩
  · rfl
  · simp only [Option.bind_some, Result.cases_error, noting]
    rcases q c _ with _ | ⟨e' | ⟨w, d'⟩, s'⟩ <;> rfl
  · rfl

/-! ## Repetition -/

/-- The end of a repetition that has stalled. -/
def stalled (c : C) : Run C β :=
  noting (.stalled (position c)) (stop (.error (.new c .noProgress)))

theorem foldFrom_succ (combine : β → α → β) (p : Parser C α) (n : Nat) (acc : β) :
    foldFrom combine p (n + 1) acc c = followedBy (p c) (Result.cases
      (fun _ => stop (.ok (acc, c)))
      fun v d => if position c < position d then foldFrom combine p n (combine acc v) d
        else stalled c) := by
  funext st
  unfold foldFrom followedBy
  rcases p c st with _ | ⟨e | ⟨v, d⟩, s⟩
  · rfl
  · rfl
  · simp only [Option.bind_some, Result.cases_ok]
    split <;> rfl

theorem fold1_eq (combine : β → α → β) (start : β) (p : Parser C α) :
    fold1 combine start p c = followedBy (p c) (Result.cases (fun e => stop (.error e))
      fun v d => if position c < position d then fold combine (combine start v) p d
        else stalled c) := by
  funext st
  unfold fold1 followedBy
  rcases p c st with _ | ⟨e | ⟨v, d⟩, s⟩
  · rfl
  · rfl
  · simp only [Option.bind_some, Result.cases_ok]
    split <;> rfl

theorem foldl_push (values vs : List α) : values.foldl push vs = values.reverse ++ vs := by
  induction values generalizing vs with
  | nil => rfl
  | cons v values ih =>
    rw [List.foldl_cons, ih, List.reverse_cons, List.append_assoc]
    rfl

/-- The values can be collected first and combined afterwards. -/
theorem foldFrom_eq_map (combine : β → α → β) (start : β) (p : Parser C α) (n : Nat) :
    ∀ (vs : List α) (c : C), foldFrom combine p n (vs.reverse.foldl combine start) c =
      followedBy (foldFrom push p n vs c) fun r =>
        stop (Result.map (fun vs => vs.reverse.foldl combine start) r) := by
  induction n with
  | zero => exact fun vs c => rfl
  | succ n ih =>
    intro vs c
    rw [foldFrom_succ, foldFrom_succ, followedBy_assoc]
    congr 1
    funext r
    rcases r with e | ⟨v, d⟩
    · rfl
    · simp only [Result.cases_ok]
      split
      · rw [show push vs v = v :: vs from rfl, ← ih (v :: vs) d, List.reverse_cons,
          List.foldl_append]
        rfl
      · rfl

/-- A repetition is one that collects the values, which are combined afterwards. -/
theorem fold_eq_map_many (combine : β → α → β) (start : β) (p : Parser C α) :
    fold combine start p = map (List.foldl combine start) (many p) := by
  funext c
  unfold many
  rw [map_eq, map_eq, followedBy_assoc]
  refine (foldFrom_eq_map combine start p _ [] c).trans ?_
  congr 1
  funext r
  rw [stop_followedBy, Result.map_map]
  rfl

theorem fold1_eq_map_many1 (combine : β → α → β) (start : β) (p : Parser C α) :
    fold1 combine start p = map (List.foldl combine start) (many1 p) := by
  funext c
  unfold many1
  rw [map_eq, map_eq, followedBy_assoc, fold1_eq, fold1_eq, followedBy_assoc]
  congr 1
  funext r
  rcases r with e | ⟨v, d⟩
  · rfl
  · simp only [Result.cases_ok]
    split
    · rw [fold_eq_map_many, fold_eq_map_many push, map_eq, map_eq, followedBy_assoc]
      congr 1
      funext r
      rw [stop_followedBy, stop_followedBy, Result.map_map, Result.map_map]
      congr 2
      funext vs
      simp [foldl_push, push]
    · rfl

/-- The values that follow a first one, with it in front. -/
theorem map_reverse_fold (v : α) (p : Parser C α) :
    map List.reverse (fold push [v] p) = map (v :: ·) (many p) := by
  funext c
  rw [fold_eq_map_many, map_eq, map_eq, map_eq, followedBy_assoc]
  congr 1
  funext r
  rw [stop_followedBy, Result.map_map]
  congr 2
  funext vs
  simp [foldl_push]

/-- A first round, and then a repetition. -/
theorem many1_eq (p : Parser C α) :
    many1 p c = followedBy (p c) (Result.cases (fun e => stop (.error e))
      fun v d => if position c < position d then map (v :: ·) (many p) d else stalled c) := by
  unfold many1
  rw [map_eq, fold1_eq, followedBy_assoc]
  congr 1
  funext r
  rcases r with e | ⟨v, d⟩
  · rfl
  · simp only [Result.cases_ok]
    split
    · rw [← map_reverse_fold, map_eq]
      rfl
    · rfl

/-! ## Rounds -/

section

variable [InputView C τ σ]

/-- The values of a parser come with cursors that are reached by reading. -/
def Reading (p : Parser C α) : Prop :=
  ∀ ⦃c r⦄, Gives (p c) r → r.From c

variable [Token τ] [LawfulInput C]

/-- The bound on the rounds makes no difference, if it is at least as large as what is
left of the source: every round but the last one leaves less of it. -/
theorem foldFrom_eq_of_left_lt (hReading : Reading p) (combine : β → α → β) (n : Nat) :
    ∀ {m acc c}, left c < n → left c < m →
      foldFrom combine p n acc c = foldFrom combine p m acc c := by
  induction n with
  | zero => intro m acc c hn; exact absurd hn (Nat.not_lt_zero _)
  | succ n ih =>
    intro m acc c hn hm
    obtain ⟨m, rfl⟩ := Nat.exists_eq_add_one_of_ne_zero (Nat.ne_zero_of_lt hm)
    rw [foldFrom_succ, foldFrom_succ]
    refine followedBy_congr fun r hGives => ?_
    rcases r with e | ⟨v, d⟩
    · rfl
    · obtain ⟨tokens, hReads⟩ : ∃ tokens, Reads c tokens d := hReading hGives
      simp only [Result.cases_ok]
      split
      · rename_i hLt
        have hLeft := hReads.left_lt hLt
        exact ih (by omega) (by omega)
      · rfl

/-- One round of a repetition, and the repetition again where the round has ended. -/
theorem many_eq (hReading : Reading p) :
    many p c = followedBy (p c) (Result.cases (fun _ => stop (.ok ([], c)))
      fun v d => if position c < position d then map (v :: ·) (many p) d else stalled c) := by
  change map List.reverse (fold push [] p) c = _
  rw [map_eq, fold, foldFrom_succ, followedBy_assoc]
  refine followedBy_congr fun r hGives => ?_
  rcases r with e | ⟨v, d⟩
  · rfl
  · obtain ⟨tokens, hReads⟩ : ∃ tokens, Reads c tokens d := hReading hGives
    simp only [Result.cases_ok]
    split
    · rename_i hLt
      have hLeft := hReads.left_lt hLt
      rw [foldFrom_eq_of_left_lt hReading push _ hLeft (Nat.lt_succ_self _), ← map_reverse_fold,
        map_eq]
      rfl
    · rfl

end

end Parser

end Packrat

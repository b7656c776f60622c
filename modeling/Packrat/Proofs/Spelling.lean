import Packrat.Grammar.Character
import Packrat.Grammar.Continuation
import Packrat.Proofs.Alike

/-!
# Values spelled out

Texts, and bytes, can be read as the characters they are made of. Values that are
the same once this is done are spelled alike. The functions that a grammar can
apply, and the continuations, see no more of texts and bytes than that.

* `Value.spell`: a value with the characters in the place of texts or of bytes;
* `Value.SpelledAlike`: two values that are spelled in one way;
* `Operation.eval_spell`: functions on values that are spelled out;
* `Value.spelledAlike_congruence`: all ways to build values keep the relation;
* `Grammar.alike_mapCall`, `Grammar.alike_takeBy`, `Grammar.alike_switch` and the
  like: functions and continuations treat values that are spelled alike in one way.
-/

namespace Packrat

open List

/-- What is read as characters: texts, or bytes. -/
structure Spelling where
  texts : Bool := false
  bytes : Bool := false

namespace Value

mutual

/-- A value with characters in the place of texts or of bytes. -/
def spell (κ : Spelling) : Value → Value
  | text s => if κ.texts then chars s.toList else text s
  | byte b => if κ.bytes then char (charOfByte b) else byte b
  | bytes bs => if κ.bytes then chars (bs.map charOfByte) else bytes bs
  | list vs => list (spellAll κ vs)
  | pair v w => pair (v.spell κ) (w.spell κ)
  | some v => some (v.spell κ)
  | function f vs => function f (spellAll κ vs)
  | unit => unit
  | bool b => bool b
  | int n => int n
  | float x => float x
  | char c => char c
  | chars cs => chars cs
  | none => none

/-- The values of a list, spelled out. -/
def spellAll (κ : Spelling) : List Value → List Value
  | [] => []
  | v :: vs => v.spell κ :: spellAll κ vs

end

variable {κ : Spelling}

theorem spellAll_eq_map (vs : List Value) : spellAll κ vs = vs.map (spell κ) := by
  induction vs with
  | nil => rfl
  | cons v vs ih => rw [spellAll, ih, map_cons]

mutual

theorem spell_spell : ∀ v : Value, (v.spell κ).spell κ = v.spell κ
  | text s => by simp only [spell]; split <;> simp_all [spell]
  | byte b => by simp only [spell]; split <;> simp_all [spell]
  | bytes bs => by simp only [spell]; split <;> simp_all [spell]
  | list vs => by simp only [spell, spellAll_spellAll vs]
  | pair v w => by simp only [spell, spell_spell v, spell_spell w]
  | some v => by simp only [spell, spell_spell v]
  | function f vs => by simp only [spell, spellAll_spellAll vs]
  | unit | bool _ | int _ | float _ | char _ | chars _ | none => rfl

theorem spellAll_spellAll : ∀ vs : List Value, spellAll κ (spellAll κ vs) = spellAll κ vs
  | [] => rfl
  | v :: vs => by simp only [spellAll, spell_spell v, spellAll_spellAll vs]

end

/-! ## What is seen of a value -/

mutual

theorem characters_spell : ∀ v : Value, (v.spell κ).characters = v.characters
  | text s => by simp only [spell]; split <;> rfl
  | byte b => by simp only [spell]; split <;> rfl
  | bytes bs => by simp only [spell]; split <;> rfl
  | list vs => by simp only [spell, characters, charactersOfAll_spellAll vs]
  | pair v w => by simp only [spell, characters, characters_spell v, characters_spell w]
  | some v => by simp only [spell, characters, characters_spell v]
  | unit | bool _ | int _ | float _ | char _ | chars _ | none | function _ _ => rfl

theorem charactersOfAll_spellAll :
    ∀ vs : List Value, charactersOfAll (spellAll κ vs) = charactersOfAll vs
  | [] => rfl
  | v :: vs => by
    simp only [spellAll, charactersOfAll, characters_spell v, charactersOfAll_spellAll vs]

end

theorem str_spell (v : Value) : (v.spell κ).str = v.str := by
  unfold str
  rw [characters_spell]

theorem token?_spell (v : Value) : (v.spell κ).token? = v.token? := by
  cases v with
  | text s => simp only [spell]; split <;> rfl
  | byte b => simp only [spell]; split <;> rfl
  | bytes bs => simp only [spell]; split <;> rfl
  | _ => rfl

theorem length?_spell (v : Value) : Operation.length? (v.spell κ) = Operation.length? v := by
  cases v with
  | text s =>
    simp only [spell]
    split
    · exact congrArg Option.some String.length_toList
    · rfl
  | byte b => simp only [spell]; split <;> rfl
  | bytes bs =>
    simp only [spell]
    split
    · exact congrArg Option.some (length_map _)
    · rfl
  | list vs =>
    simp only [spell, spellAll_eq_map]
    exact congrArg Option.some (length_map _)
  | _ => rfl

/-- A number that a value is. -/
def int? : Value → Option Int64
  | int n => .some n
  | _ => .none

theorem int?_spell (v : Value) : (v.spell κ).int? = v.int? := by
  cases v with
  | text s => simp only [spell]; split <;> rfl
  | byte b => simp only [spell]; split <;> rfl
  | bytes bs => simp only [spell]; split <;> rfl
  | _ => rfl

/-- The values that a value lists. -/
def list? : Value → Option (List Value)
  | list vs => .some vs
  | _ => .none

theorem list?_spell (v : Value) : (v.spell κ).list? = v.list?.map (map (spell κ)) := by
  cases v with
  | text s => simp only [spell]; split <;> rfl
  | byte b => simp only [spell]; split <;> rfl
  | bytes bs => simp only [spell]; split <;> rfl
  | list vs => simp only [spell, list?, spellAll_eq_map, Option.map_some]
  | _ => rfl

/-- The two values that a value pairs. -/
def pair? : Value → Option (Value × Value)
  | pair v w => .some (v, w)
  | _ => .none

theorem pair?_spell (v : Value) :
    (v.spell κ).pair? = v.pair?.map (Prod.map (spell κ) (spell κ)) := by
  cases v with
  | text s => simp only [spell]; split <;> rfl
  | byte b => simp only [spell]; split <;> rfl
  | bytes bs => simp only [spell]; split <;> rfl
  | _ => rfl

end Value

/-! ## Functions -/

namespace Operation

open Value

variable {κ : Spelling}

/-! The result of a function in terms of what it sees of its arguments. -/

/-- The arithmetic functions of two numbers. -/
def arithmetic? : Operation → Option (Int64 → Int64 → Int64)
  | add => .some (· + ·)
  | sub => .some (· - ·)
  | mul => .some (· * ·)
  | _ => .none

theorem eval_arithmetic {f : Operation} {op : Int64 → Int64 → Int64}
    (h : f.arithmetic? = .some op) (x : Value) (vs : List Value) :
    f.eval (x :: vs) = (x.int?.bind fun m => (vs.head?.bind int?).map fun n =>
      Value.int (op m n)).getD .unit := by
  cases f <;> cases h <;> cases x <;> try rfl
  all_goals
    rcases vs with _ | ⟨y, vs⟩
    · rfl
    · cases y <;> rfl

theorem eval_neg (x : Value) (vs : List Value) :
    eval neg (x :: vs) = (x.int?.map fun n => Value.int (-n)).getD .unit := by
  cases x <;> rfl

theorem eval_inc (x : Value) (vs : List Value) :
    eval inc (x :: vs) = (x.int?.map fun n => Value.int (n + 1)).getD .unit := by
  cases x <;> rfl

theorem eval_cons (x : Value) (vs : List Value) :
    eval cons (x :: vs) =
      ((vs.head?.bind list?).map fun us => Value.list (x :: us)).getD .unit := by
  rcases vs with _ | ⟨y, vs⟩
  · rfl
  · cases y <;> rfl

theorem eval_append (x : Value) (vs : List Value) :
    eval append (x :: vs) =
      (x.list?.bind fun us => vs.head?.map fun y => Value.list (us ++ [y])).getD .unit := by
  cases x <;> try rfl
  cases vs <;> rfl

theorem eval_fst (x : Value) (vs : List Value) :
    eval fst (x :: vs) = (x.pair?.map Prod.fst).getD .unit := by
  cases x <;> rfl

theorem eval_snd (x : Value) (vs : List Value) :
    eval snd (x :: vs) = (x.pair?.map Prod.snd).getD .unit := by
  cases x <;> rfl

theorem eval_swap (x : Value) (vs : List Value) :
    eval swap (x :: vs) = (x.pair?.map fun y => Value.pair y.2 y.1).getD .unit := by
  cases x <;> rfl

theorem eval_sum (x : Value) (vs : List Value) :
    eval sum (x :: vs) = (x.list?.map fun us => Value.int (sumOf us)).getD .unit := by
  cases x <;> rfl

theorem eval_calculate (x : Value) (vs : List Value) :
    eval calculate (x :: vs) = (x.pair?.bind fun y => y.1.int?.bind fun n =>
      y.2.list?.map fun us => Value.int (us.foldl operate n)).getD .unit := by
  cases x with
  | pair y z =>
    cases y <;> try rfl
    cases z <;> rfl
  | _ => rfl

theorem operate_eq (total : Int64) (v : Value) :
    operate total v = (v.pair?.bind fun x => x.2.int?.map fun n =>
      if x.1.str = "+" then total + n
      else if x.1.str = "-" then total - n
      else if x.1.str = "*" then total * n
      else total).getD total := by
  cases v with
  | pair x y => cases y <;> rfl
  | _ => rfl

theorem sumOf_eq (vs : List Value) :
    sumOf vs = vs.foldl (fun total v => total + v.int?.getD 0) 0 := by
  unfold sumOf
  congr 1
  funext total v
  cases v <;> simp [int?]

/-! Functions on values that are spelled out. -/

theorem eval_arithmetic_spell {f : Operation} {op : Int64 → Int64 → Int64}
    (h : f.arithmetic? = .some op) (x : Value) (vs : List Value) :
    f.eval (x.spell κ :: vs.map (spell κ)) = f.eval (x :: vs) := by
  rw [eval_arithmetic h, eval_arithmetic h, int?_spell, head?_map]
  rcases vs.head? with _ | y
  · rfl
  · simp only [Option.map_some, Option.bind_some, int?_spell]

theorem foldl_operate_spell (total : Int64) (vs : List Value) :
    (vs.map (spell κ)).foldl operate total = vs.foldl operate total := by
  have hOperate : ∀ total v, operate total (v.spell κ) = operate total v := by
    intro total v
    rw [operate_eq, operate_eq, pair?_spell]
    rcases v.pair? with _ | x
    · rfl
    · simp only [Option.map_some, Option.bind_some, Prod.map_fst, Prod.map_snd, int?_spell,
        str_spell]
  rw [foldl_map]
  simp only [hOperate]

theorem sumOf_spell (vs : List Value) : sumOf (vs.map (spell κ)) = sumOf vs := by
  rw [sumOf_eq, sumOf_eq, foldl_map]
  simp only [int?_spell]

/-- A function that is applied to values that are spelled out gives the same, spelled
out. -/
theorem eval_spell (f : Operation) (vs : List Value) :
    (f.eval (vs.map (spell κ))).spell κ = (f.eval vs).spell κ := by
  rcases vs with _ | ⟨x, vs⟩
  · rfl
  rw [map_cons]
  cases f with
  | id => exact spell_spell x
  | const =>
    cases vs with
    | nil => rfl
    | cons y vs => exact spell_spell x
  | add => rw [eval_arithmetic_spell rfl]
  | sub => rw [eval_arithmetic_spell rfl]
  | mul => rw [eval_arithmetic_spell rfl]
  | neg => rw [eval_neg, eval_neg, int?_spell]
  | inc => rw [eval_inc, eval_inc, int?_spell]
  | pair =>
    cases vs with
    | nil => rfl
    | cons y vs => simp only [map_cons, eval, spell, spell_spell]
  | triple =>
    rcases vs with _ | ⟨y, _ | ⟨z, vs⟩⟩
    · rfl
    · rfl
    · simp only [map_cons, eval, spell, spellAll, spell_spell]
  | cons =>
    rw [eval_cons, eval_cons, head?_map]
    rcases vs.head? with _ | y
    · rfl
    · simp only [Option.map_some, Option.bind_some, list?_spell]
      rcases y.list? with _ | us
      · rfl
      · simp only [Option.map_some, Option.getD_some, spell, spellAll, spell_spell,
          ← spellAll_eq_map, spellAll_spellAll]
  | append =>
    rw [eval_append, eval_append, head?_map, list?_spell]
    rcases x.list? with _ | us
    · rfl
    · rcases vs.head? with _ | y
      · rfl
      · simp only [Option.map_some, Option.bind_some, Option.getD_some, spell, spellAll_eq_map,
          map_append, map_map, map_cons, map_nil, spell_spell]
        exact congrArg (fun ws => Value.list (ws ++ _)) (map_congr_left fun v _ => spell_spell v)
  | fst =>
    rw [eval_fst, eval_fst, pair?_spell]
    rcases x.pair? with _ | ⟨v, w⟩
    · rfl
    · exact spell_spell v
  | snd =>
    rw [eval_snd, eval_snd, pair?_spell]
    rcases x.pair? with _ | ⟨v, w⟩
    · rfl
    · exact spell_spell w
  | swap =>
    rw [eval_swap, eval_swap, pair?_spell]
    rcases x.pair? with _ | ⟨v, w⟩
    · rfl
    · simp only [Option.map_some, Prod.map, Option.getD_some, spell, spell_spell]
  | some => exact congrArg Value.some (spell_spell x)
  | isSome =>
    cases x with
    | text s => simp only [spell]; split <;> rfl
    | byte b => simp only [spell]; split <;> rfl
    | bytes bs => simp only [spell]; split <;> rfl
    | _ => rfl
  | len => simp only [eval, length?_spell]
  | str => simp only [eval, str_spell]
  | digit => simp only [eval, token?_spell]
  | code => simp only [eval, token?_spell]
  | sum =>
    rw [eval_sum, eval_sum, list?_spell]
    rcases x.list? with _ | us
    · rfl
    · simp only [Option.map_some, sumOf_spell]
  | calculate =>
    rw [eval_calculate, eval_calculate, pair?_spell]
    rcases x.pair? with _ | ⟨v, w⟩
    · rfl
    · simp only [Option.map_some, Option.bind_some, Prod.map_fst, Prod.map_snd, int?_spell,
        list?_spell]
      rcases v.int? with _ | n
      · rfl
      · rcases w.list? with _ | us
        · rfl
        · simp only [Option.map_some, Option.bind_some, foldl_operate_spell]

end Operation

/-! ## Values that are spelled alike -/

namespace Value

/-- Two values that are the same once they are spelled out. -/
def SpelledAlike (κ : Spelling) (v w : Value) : Prop :=
  v.spell κ = w.spell κ

variable {κ : Spelling} {v w : Value}

theorem spell_call (f x : Value) :
    ((f.spell κ).call (x.spell κ)).spell κ = (f.call x).spell κ := by
  cases f with
  | text s => simp only [spell]; split <;> rfl
  | byte b => simp only [spell]; split <;> rfl
  | bytes bs => simp only [spell]; split <;> rfl
  | function f vs =>
    have hArgs : vs.map (spell κ) ++ [x.spell κ] = (vs ++ [x]).map (spell κ) := by simp
    simp only [spell, call, spellAll_eq_map, hArgs, length_map]
    split
    · simp only [spell, ← spellAll_eq_map, spellAll_spellAll]
    · exact f.eval_spell _
  | _ => rfl

theorem spelledAlike_congruence (κ : Spelling) : Congruence (SpelledAlike κ) where
  refl _ := rfl
  symm := Eq.symm
  pair h k := by
    unfold SpelledAlike at *
    simp only [spell, h, k]
  some h := congrArg Value.some h
  list {vs ws} h := by
    have hMap : Forall₂ Eq (vs.map (spell κ)) (ws.map (spell κ)) :=
      forall₂_map_left_iff.mpr (forall₂_map_right_iff.mpr h)
    rw [forall₂_eq_eq_eq] at hMap
    unfold SpelledAlike
    simp only [spell, spellAll_eq_map, hMap]
  call := by
    intro f g x y hf hx
    unfold SpelledAlike at *
    rw [← spell_call f x, hf, hx, spell_call]

namespace SpelledAlike

theorem int?_eq (h : SpelledAlike κ v w) : v.int? = w.int? := by
  rw [← int?_spell v, h, int?_spell]

theorem characters_eq (h : SpelledAlike κ v w) : v.characters = w.characters := by
  rw [← characters_spell v, h, characters_spell]

theorem str_eq (h : SpelledAlike κ v w) : v.str = w.str := by
  rw [← str_spell v, h, str_spell]

end SpelledAlike

end Value

/-! ## Grammars -/

namespace Grammar

open Value

variable {κ : Spelling} {stored : Prop} {v w : Value} {g g' : Grammar}

/-- A function value is applied to values that are spelled alike. -/
theorem alike_mapCall (f : Value) (h : Alike (SpelledAlike κ) stored g g') :
    Alike (SpelledAlike κ) stored (.map f.call g) (.map f.call g') :=
  .map (fun hv => (spelledAlike_congruence κ).call rfl hv) h

theorem alike_takeBy (h : SpelledAlike κ v w) :
    Alike (SpelledAlike κ) stored (takeBy v) (takeBy w) := by
  have hTake : ∀ u, takeBy u = .take ((u.int?.map fun n => n.toInt.toNat).getD 0) := by
    intro u
    cases u <;> rfl
  rw [hTake, hTake, h.int?_eq]
  exact .take _

theorem alike_literalBy (h : SpelledAlike κ v w) :
    Alike (SpelledAlike κ) stored (literalBy v) (literalBy w) := by
  unfold literalBy
  rw [h.str_eq]
  exact .literal _

theorem alike_literalAnyCaseBy (h : SpelledAlike κ v w) :
    Alike (SpelledAlike κ) stored (literalAnyCaseBy v) (literalAnyCaseBy w) := by
  unfold literalAnyCaseBy
  rw [h.str_eq]
  exact .literalAnyCase _

theorem alike_charBy (h : SpelledAlike κ v w) :
    Alike (SpelledAlike κ) stored (char (firstOf v)) (char (firstOf w)) := by
  unfold firstOf
  rw [h.characters_eq]
  exact .label _ (.satisfy _)

theorem alike_switch {rows : List (String × Grammar)} {otherwise : Grammar}
    (hRows : ∀ row ∈ rows, Alike (SpelledAlike κ) stored row.2 row.2)
    (hOtherwise : Alike (SpelledAlike κ) stored otherwise otherwise) (h : SpelledAlike κ v w) :
    Alike (SpelledAlike κ) stored (switch rows otherwise v) (switch rows otherwise w) := by
  unfold switch
  rw [h.str_eq]
  rcases hLookup : rows.lookup w.str with _ | g
  · exact hOtherwise
  · exact hRows (w.str, g) (mem_of_lookup hLookup)

end Grammar

end Packrat

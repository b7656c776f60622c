import Packrat.Binary64

/-!
# Values

Grammars are written without types, so all of them yield values of one type:
numbers, tokens, slices of a source, texts, lists, pairs, options, and functions
that still wait for arguments.

- `Value`: the values, with a decision of their equality;
- `Value.characters`, `Value.str`: the characters that a value is made of;
- `ToValue`: the types of tokens and slices, seen as values.
-/

namespace Packrat

/-- The functions that a grammar can apply. -/
inductive Operation where
  | id | const | add | sub | mul | neg | inc
  | pair | triple | cons | append | fst | snd | swap
  | some | isSome | len | str | digit | code | sum | calculate
  deriving DecidableEq, Repr

/-- What a parser yields. -/
inductive Value where
  | unit
  | bool (b : Bool)
  | int (n : Int64)
  | float (x : Binary64)
  /-- A character read as a token. -/
  | char (c : Char)
  /-- A byte read as a token. -/
  | byte (b : UInt8)
  | text (s : String)
  /-- A slice of an array of characters. -/
  | chars (cs : List Char)
  /-- A slice of an array of bytes. -/
  | bytes (bs : List UInt8)
  | list (vs : List Value)
  | pair (v w : Value)
  | none
  | some (v : Value)
  /-- A function and its arguments so far. -/
  | function (f : Operation) (args : List Value)
  deriving Repr, Inhabited

namespace Value

/-! ## Equality -/

mutual

/-- Whether two values are the same. -/
def same : Value → Value → Bool
  | unit, unit | none, none => true
  | bool a, bool b => a == b
  | int m, int n => m == n
  | float x, float y => x == y
  | char c, char d => c == d
  | byte a, byte b => a == b
  | text s, text t => s == t
  | chars cs, chars ds => cs == ds
  | bytes as, bytes bs => as == bs
  | list vs, list ws => sameAll vs ws
  | pair v w, pair x y => v.same x && w.same y
  | some v, some w => v.same w
  | function f vs, function g ws => f == g && sameAll vs ws
  | _, _ => false

/-- Whether two lists hold the same values. -/
def sameAll : List Value → List Value → Bool
  | [], [] => true
  | v :: vs, w :: ws => v.same w && sameAll vs ws
  | _, _ => false

end

mutual

theorem same_iff : ∀ v w : Value, v.same w = true ↔ v = w
  | list vs, w => by cases w <;> simp [same, sameAll_iff vs]
  | pair v w, x => by cases x <;> simp [same, same_iff v, same_iff w]
  | some v, w => by cases w <;> simp [same, same_iff v]
  | function f vs, w => by cases w <;> simp [same, sameAll_iff vs]
  | unit, w | none, w | bool _, w | int _, w | float _, w | char _, w | byte _, w | text _, w
  | chars _, w | bytes _, w => by cases w <;> simp [same]

theorem sameAll_iff : ∀ vs ws : List Value, sameAll vs ws = true ↔ vs = ws
  | [], ws => by cases ws <;> simp [sameAll]
  | v :: vs, ws => by cases ws <;> simp [sameAll, same_iff v, sameAll_iff vs]

end

instance : DecidableEq Value :=
  fun v w => decidable_of_iff _ (same_iff v w)

/-! ## Characters -/

/-- The character of a byte is the one of its code. -/
def charOfByte (b : UInt8) : Char :=
  Char.ofNat b.toNat

mutual

/-- The characters that a value is made of: those of tokens and slices, the
decimal digits of an integer, and nothing for what holds neither. -/
def characters : Value → List Char
  | char c => [c]
  | byte b => [charOfByte b]
  | text s => s.toList
  | chars cs => cs
  | bytes bs => bs.map charOfByte
  | int n => (toString n.toInt).toList
  | list vs => charactersOfAll vs
  | pair v w => v.characters ++ w.characters
  | some v => v.characters
  | unit | bool _ | float _ | none | function _ _ => []

/-- The characters of the values of a list, in order. -/
def charactersOfAll : List Value → List Char
  | [] => []
  | v :: vs => v.characters ++ charactersOfAll vs

end

def str (v : Value) : String :=
  String.ofList v.characters

/-- A character that was read as a token. -/
def char? : Value → Option Char
  | char c => Option.some c
  | _ => Option.none

/-- A byte that was read as a token. -/
def byte? : Value → Option UInt8
  | byte b => Option.some b
  | _ => Option.none

/-- The character that a token stands for. -/
def token? : Value → Option Char
  | char c => Option.some c
  | byte b => Option.some (charOfByte b)
  | _ => Option.none

end Value

/-- A type whose values can be yielded by a grammar. -/
class ToValue (α : Type) where
  toValue : α → Value

instance : ToValue Char := ⟨.char⟩
instance : ToValue UInt8 := ⟨.byte⟩
instance : ToValue String := ⟨.text⟩
instance : ToValue (List Char) := ⟨.chars⟩
instance : ToValue (List UInt8) := ⟨.bytes⟩

end Packrat

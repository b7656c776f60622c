import Packrat.Proofs.Equations

/-!
# Parsing expressions

What a grammar matches at the front of a list of tokens, by rules that know neither
cursors nor failures nor states: a choice tries its second part on the whole list
again, a repetition takes the longest run of matches, and a name stands for its
grammar.

* `Peg.Outcome`: a value with the tokens that are left, or none;
* `Peg.primitive?`: what the grammars without parts match;
* `Peg.Derives`: the rules.
-/

namespace Packrat

open List

/-! ## Rules -/

namespace Peg

/-- What becomes of a list of tokens. -/
inductive Outcome (τ : Type) where
  | success (v : Value) (rest : List τ)
  | failure

variable {τ : Type}

/-- A function applied to the value. -/
def Outcome.map (f : Value → Value) : Outcome τ → Outcome τ
  | success v rest => success (f v) rest
  | failure => failure

variable [Token τ]

/-- The first token, if its character passes a test. -/
def first (test : Char → Bool) (value : τ → Value) : List τ → Outcome τ
  | [] => .failure
  | token :: tokens => if test (Token.toChar token) then .success (value token) tokens else .failure

/-- The longest run of tokens whose characters pass a test. -/
def longest (test : Char → Bool) (value : List τ → Value) (s : List τ) : Outcome τ :=
  .success (value (s.takeWhile (test ∘ Token.toChar))) (s.dropWhile (test ∘ Token.toChar))

/-- Tokens that spell a word, but for what a key does not tell apart. -/
def word (key : Char → Char) (text : String) (value : List τ → Value) (s : List τ) : Outcome τ :=
  if text.toList.map key <+: s.map (key ∘ Token.toChar) then
    .success (value (s.take text.toList.length)) (s.drop text.toList.length)
  else .failure

variable [ToValue τ]

/-- What a grammar without parts makes of a list of tokens. -/
def primitive? (slice : List τ → Value) : Grammar → Option (List τ → Outcome τ)
  | .pure v => some (.success v)
  | .satisfy test => some (first test ToValue.toValue)
  | .skipIf test => some (first test fun _ => .unit)
  | .endOfInput => some fun s => if s = [] then .success .unit s else .failure
  | .take n => some fun s =>
    if n ≤ s.length then .success (slice (s.take n)) (s.drop n) else .failure
  | .takeWhile test => some (longest test slice)
  | .takeWhile1 test => some fun s =>
    if s.takeWhile (test ∘ Token.toChar) = [] then .failure else longest test slice s
  | .skipWhile test => some (longest test fun _ => .unit)
  | .literal text => some (word id text fun _ => .text text)
  | .literalAnyCase text => some (word Char.toLower text slice)
  | _ => none

/-- What a grammar of a program makes of a list of tokens, where `slice` is the value
of some tokens. -/
inductive Derives (P : Program) (slice : List τ → Value) : Grammar → List τ → Outcome τ → Prop
  | primitive {g f s} (hPrimitive : primitive? slice g = some f) : Derives P slice g s (f s)
  | map {f g s o} (hg : Derives P slice g s o) : Derives P slice (.map f g) s (o.map f)
  | convert {name reason f g s v w y} (hg : Derives P slice g s (.success v y))
    (hValue : f v = some w) : Derives P slice (.convert name reason f g) s (.success w y)
  | convert_refused {name reason f g s v y} (hg : Derives P slice g s (.success v y))
    (hValue : f v = none) : Derives P slice (.convert name reason f g) s .failure
  | convert_failure {name reason f g s} (hg : Derives P slice g s .failure) :
    Derives P slice (.convert name reason f g) s .failure
  | both {g h s v y o} (hg : Derives P slice g s (.success v y)) (hh : Derives P slice h y o) :
    Derives P slice (.both g h) s (o.map (.pair v))
  | both_failure {g h s} (hg : Derives P slice g s .failure) :
    Derives P slice (.both g h) s .failure
  | seqRight {g h s v y o} (hg : Derives P slice g s (.success v y))
    (hh : Derives P slice h y o) : Derives P slice (.seqRight g h) s o
  | seqRight_failure {g h s} (hg : Derives P slice g s .failure) :
    Derives P slice (.seqRight g h) s .failure
  | seqLeft {g h s v y o} (hg : Derives P slice g s (.success v y))
    (hh : Derives P slice h y o) : Derives P slice (.seqLeft g h) s (o.map fun _ => v)
  | seqLeft_failure {g h s} (hg : Derives P slice g s .failure) :
    Derives P slice (.seqLeft g h) s .failure
  | apply {g h s v y o} (hg : Derives P slice g s (.success v y)) (hh : Derives P slice h y o) :
    Derives P slice (.apply g h) s (o.map v.call)
  | apply_failure {g h s} (hg : Derives P slice g s .failure) :
    Derives P slice (.apply g h) s .failure
  | bind {g k s v y o} (hg : Derives P slice g s (.success v y))
    (hNext : Derives P slice (k v) y o) : Derives P slice (.bind g k) s o
  | bind_failure {g k s} (hg : Derives P slice g s .failure) :
    Derives P slice (.bind g k) s .failure
  | orElse_first {g h s v y} (hg : Derives P slice g s (.success v y)) :
    Derives P slice (.orElse g h) s (.success v y)
  | orElse_second {g h s o} (hg : Derives P slice g s .failure) (hh : Derives P slice h s o) :
    Derives P slice (.orElse g h) s o
  | label {name g s o} (hg : Derives P slice g s o) : Derives P slice (.label name g) s o
  | lexeme {name g s o} (hg : Derives P slice g s o) : Derives P slice (.lexeme name g) s o
  | optional {g s v y} (hg : Derives P slice g s (.success v y)) :
    Derives P slice (.optional g) s (.success (.some v) y)
  | optional_absent {g s} (hg : Derives P slice g s .failure) :
    Derives P slice (.optional g) s (.success .none s)
  | option {default g s v y} (hg : Derives P slice g s (.success v y)) :
    Derives P slice (.option default g) s (.success v y)
  | option_absent {default g s} (hg : Derives P slice g s .failure) :
    Derives P slice (.option default g) s (.success default s)
  | marked {default g h s v y o} (hg : Derives P slice g s (.success v y))
    (hh : Derives P slice h y o) : Derives P slice (.marked default g h) s o
  | marked_absent {default g h s} (hg : Derives P slice g s .failure) :
    Derives P slice (.marked default g h) s (.success default s)
  | notFollowedBy {g s} (hg : Derives P slice g s .failure) :
    Derives P slice (.notFollowedBy g) s (.success .unit s)
  | notFollowedBy_failure {g s v y} (hg : Derives P slice g s (.success v y)) :
    Derives P slice (.notFollowedBy g) s .failure
  | many_stop {g s} (hg : Derives P slice g s .failure) :
    Derives P slice (.many g) s (.success (.list []) s)
  | many_more {g s v y vs z} (hg : Derives P slice g s (.success v y)) (hMoved : y ≠ s)
    (hMore : Derives P slice (.many g) y (.success (.list vs) z)) :
    Derives P slice (.many g) s (.success (.list (v :: vs)) z)
  | many_failure {g s v y} (hg : Derives P slice g s (.success v y)) (hMoved : y ≠ s)
    (hMore : Derives P slice (.many g) y .failure) : Derives P slice (.many g) s .failure
  | many_stall {g s v} (hg : Derives P slice g s (.success v s)) :
    Derives P slice (.many g) s .failure
  | many1_more {g s v y vs z} (hg : Derives P slice g s (.success v y)) (hMoved : y ≠ s)
    (hMore : Derives P slice (.many g) y (.success (.list vs) z)) :
    Derives P slice (.many1 g) s (.success (.list (v :: vs)) z)
  | many1_failure {g s v y} (hg : Derives P slice g s (.success v y)) (hMoved : y ≠ s)
    (hMore : Derives P slice (.many g) y .failure) : Derives P slice (.many1 g) s .failure
  | many1_stall {g s v} (hg : Derives P slice g s (.success v s)) :
    Derives P slice (.many1 g) s .failure
  | many1_none {g s} (hg : Derives P slice g s .failure) : Derives P slice (.many1 g) s .failure
  | skipMany {g s o} (hg : Derives P slice (.many g) s o) :
    Derives P slice (.skipMany g) s (o.map fun _ => .unit)
  | skipMany1 {g s o} (hg : Derives P slice (.many1 g) s o) :
    Derives P slice (.skipMany1 g) s (o.map fun _ => .unit)
  | memo {g s o} (hg : Derives P slice g s o) : Derives P slice (.memo g) s o
  | fresh {g s o} (hg : Derives P slice g s o) : Derives P slice (.fresh g) s o
  | tally {name g s o} (hg : Derives P slice g s o) : Derives P slice (.tally name g) s o
  | call {x g s o} (hName : P.find? x = some g) (hg : Derives P slice g s o) :
    Derives P slice (.call x) s o

end Peg

end Packrat

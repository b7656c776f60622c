import Packrat.Input
import Packrat.Token

/-!
# Failures

A failure says where it is reported, what would have been accepted there, and
why it arose. The wording of each reason is in one place.

- `Reason`: why a parser fails, with `Reason.message`;
- `ParseError`: a failure at a cursor, and how failures are moved, labelled and
  merged;
- `Result`: a value with the cursor after it, or a failure.
-/

namespace Packrat

/-- Why a parser fails. -/
inductive Reason where
  | endOfInput
  | unexpected (found : Char)
  /-- Fewer than the given number of tokens are left. -/
  | tooFew (wanted : Nat)
  /-- A literal needs a character where another one stands, or none. -/
  | mismatch (wanted : Char) (found : Option Char) (literal : String)
  /-- What must not follow does follow. -/
  | unwantedMatch
  /-- A repeated parser succeeded where it started. -/
  | noProgress
  /-- The digits stand for a number that is not a 64-bit integer. -/
  | integerRange
  | custom (message : String)
  deriving DecidableEq, Repr

def Reason.message : Reason → String
  | endOfInput => "unexpected end of input"
  | unexpected found => "unexpected " ++ Quoted.char found
  | tooFew wanted => "expected " ++ toString wanted ++ " more tokens"
  | mismatch wanted (some found) literal =>
      "expected " ++ Quoted.char wanted ++ ", found " ++ Quoted.char found ++
        " while matching " ++ Quoted.text literal
  | mismatch wanted none literal =>
      "expected " ++ Quoted.char wanted ++ ", but reached end of input while matching " ++
        Quoted.text literal
  | unwantedMatch => "negative lookahead failed: unexpected match"
  | noProgress => "repetition made no progress"
  | integerRange => "integer does not fit in 64 bits"
  | custom message => message

/-- A failure: the cursor at which it is reported and its position, the labels
of what was expected there, and the reason. -/
structure ParseError (C : Type) where
  remaining : C
  position : Nat
  expected : List String
  reason : Reason
  deriving DecidableEq, Repr

/-- A value and the cursor after it, or a failure. -/
abbrev Result (C α : Type) := Except (ParseError C) (α × C)

namespace ParseError

variable {C τ σ : Type}

def message (e : ParseError C) : String :=
  e.reason.message

/-- One more label of what was expected. -/
def expecting (e : ParseError C) (label : String) : ParseError C :=
  { e with expected := e.expected ++ [label] }

def text (e : ParseError C) : String :=
  e.message ++ " at offset " ++ toString e.position ++
    if e.expected.isEmpty then ""
    else " (expected " ++ " or ".intercalate e.expected ++ ")"

def describe [Described C] (e : ParseError C) : String :=
  Quoted.record "ParseError"
    [("remaining", Described.describe e.remaining), ("position", toString e.position),
      ("expected", Quoted.list (e.expected.map Quoted.text)), ("message", Quoted.text e.message)]

/-- Whether two failures agree, given when two cursors do. Reasons of the same
wording agree. -/
def agrees (sameCursor : C → C → Bool) (e f : ParseError C) : Bool :=
  sameCursor e.remaining f.remaining && e.position == f.position &&
    e.expected == f.expected && e.message == f.message

variable [Input C τ σ]

/-- A failure at a cursor, with nothing expected. -/
def new (c : C) (reason : Reason) : ParseError C :=
  ⟨c, Input.position c, [], reason⟩

def endOfInput (c : C) : ParseError C :=
  new c .endOfInput

def unexpected [Token τ] (c : C) (token : τ) : ParseError C :=
  new c (.unexpected (Token.toChar token))

/-- The same failure reported at another cursor. -/
def moveTo (e : ParseError C) (c : C) : ParseError C :=
  { e with remaining := c, position := Input.position c }

/-- The failure of two alternatives tried at one cursor: what either of them
expected, for the reason of the later one. -/
def merge (e later : ParseError C) (c : C) : ParseError C :=
  ⟨c, Input.position c, e.expected ++ later.expected, later.reason⟩

/-- The line and the column at which a failure is reported. -/
def location (e : ParseError C) : Location :=
  Input.location e.remaining

end ParseError

end Packrat

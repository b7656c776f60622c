import Packrat.State

/-!
# Parsers

A parser takes a cursor and the state of the run, and gives a result and the
state after it. It gives nothing at all where a recursion never returns.

- `Parser`: the parsers over one type of cursors that yield one type of values;
- `pure`, `bind`, `both` and what is made of it: parsers one after the other;
- `onResult`: a parser whose result is worked over, and `map`, `label`, `lexeme`
  and `convert` made of it.
-/

namespace Packrat

/-- A parser over cursors of type `C` that yields values of type `α`. -/
def Parser (C α : Type) := C → State C → Option (Result C α × State C)

namespace Parser

variable {C τ σ α β γ : Type}

/-- The parser that never returns. -/
def silent : Parser C α :=
  fun _ _ => none

/-- Succeed with a value and read nothing. -/
def pure (v : α) : Parser C α :=
  fun c st => some (.ok (v, c), st)

/-- Work over the result of a parser, knowing the cursor where it started. -/
def onResult (f : C → Result C α → Result C β) (p : Parser C α) : Parser C β :=
  fun c st => match p c st with
    | none => none
    | some (result, st) => some (f c result, st)

def map (f : α → β) : Parser C α → Parser C β :=
  onResult fun _ result => match result with
    | .ok (v, rest) => .ok (f v, rest)
    | .error e => .error e

/-- Add a label to what a failing parser expected. -/
def label (name : String) : Parser C α → Parser C α :=
  onResult fun _ result => match result with
    | .ok success => .ok success
    | .error e => .error (e.expecting name)

/-- Report a failure where the parser started, and as one of a named thing. -/
def lexeme [Input C τ σ] (name : String) : Parser C α → Parser C α :=
  onResult fun c result => match result with
    | .ok success => .ok success
    | .error e => .error ((e.moveTo c).expecting name)

/-- Convert the value of a parser. A value without conversion is a failure where
the parser started, of a named thing and for the reason given. -/
def convert [Input C τ σ] (name : String) (reason : Reason) (f : α → Option β) :
    Parser C α → Parser C β :=
  onResult fun c result => match result with
    | .ok (v, rest) => match f v with
      | some w => .ok (w, rest)
      | none => .error ((ParseError.new c reason).expecting name)
    | .error e => .error e

/-- Run a parser, and then the one that its value leads to. -/
def bind (p : Parser C α) (f : α → Parser C β) : Parser C β :=
  fun c st => match p c st with
    | none => none
    | some (.error e, st) => some (.error e, st)
    | some (.ok (v, rest), st) => f v rest st

/-- Run two parsers one after the other and yield both values. -/
def both (p : Parser C α) (q : Parser C β) : Parser C (α × β) :=
  fun c st => match p c st with
    | none => none
    | some (.error e, st) => some (.error e, st)
    | some (.ok (v, rest), st) => match q rest st with
      | none => none
      | some (.error e, st) => some (.error e, st)
      | some (.ok (w, rest), st) => some (.ok ((v, w), rest), st)

def seqRight (p : Parser C α) (q : Parser C β) : Parser C β :=
  map Prod.snd (both p q)

def seqLeft (p : Parser C α) (q : Parser C β) : Parser C α :=
  map Prod.fst (both p q)

/-- Run two parsers one after the other and apply the first value to the second. -/
def apply (p : Parser C (α → β)) (q : Parser C α) : Parser C β :=
  map (fun pair => pair.1 pair.2) (both p q)

def replace (v : β) : Parser C α → Parser C β :=
  map fun _ => v

end Parser

end Packrat

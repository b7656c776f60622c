import Packrat.Parser.Basic

/-!
# Repetition

A parser is repeated until it fails, and what the last, failing attempt did is
dropped. A repeated parser that succeeds where it started would be repeated
forever, so this is a failure of the repetition, at that place.

- `foldFrom`: the repetition, with a bound on the number of rounds;
- `many`, `many1`: the list of values;
- `skipMany`, `skipMany1`: the same without the values.
-/

namespace Packrat.Parser

variable {C τ σ α β : Type} [Input C τ σ]

/-- The failure of a repetition that has stalled at a cursor. -/
def stall (c : C) (st : State C) : Result C β × State C :=
  (.error (.new c .noProgress), st.note (.stalled (Input.position c)))

/-- Repeat a parser for at most `n` rounds and combine its values. Each round
must move the cursor on, so a repetition within one source ends before as many
rounds as there are positions left. -/
def foldFrom (combine : β → α → β) (p : Parser C α) :
    Nat → β → C → State C → Option (Result C β × State C)
  | 0, _, _, _ => none
  | n + 1, acc, c, st => match p c st with
    | none => none
    | some (.error _, st) => some (.ok (acc, c), st)
    | some (.ok (v, next), st) =>
      if Input.position c < Input.position next then
        foldFrom combine p n (combine acc v) next st
      else some (stall c st)

def fold (combine : β → α → β) (start : β) (p : Parser C α) : Parser C β :=
  fun c => foldFrom combine p (Input.left c + 1) start c

/-- Run a parser once, and then repeat it and combine its values. -/
def fold1 (combine : β → α → β) (start : β) (p : Parser C α) : Parser C β :=
  fun c st => match p c st with
    | none => none
    | some (.error e, st) => some (.error e, st)
    | some (.ok (v, next), st) =>
      if Input.position c < Input.position next then fold combine (combine start v) p next st
      else some (stall c st)

/-- The values of a repeated parser, the last one first, with one more. -/
def push (values : List α) (v : α) : List α :=
  v :: values

/-- The values of a parser that is repeated until it fails. -/
def many (p : Parser C α) : Parser C (List α) :=
  map List.reverse (fold push [] p)

/-- The values of a parser that succeeds once and is then repeated until it
fails. -/
def many1 (p : Parser C α) : Parser C (List α) :=
  map List.reverse (fold1 push [] p)

/-- Repeat a parser until it fails, without its values. -/
def skipMany (p : Parser C α) : Parser C Unit :=
  fold (fun _ _ => ()) () p

/-- Run a parser once and repeat it until it fails, without its values. -/
def skipMany1 (p : Parser C α) : Parser C Unit :=
  fold1 (fun _ _ => ()) () p

end Packrat.Parser

import Packrat.Parser.Basic

/-!
# Parsers of single tokens and of runs of tokens

- `satisfy`, `skipIf`: one token that passes a test;
- `endOfInput`: no token is left;
- `take`: a number of tokens;
- `takeWhile`, `takeWhile1`, `skipWhile`: the longest run of tokens that pass a
  test, found by `scan`.
-/

namespace Packrat.Parser

variable {C τ σ : Type} [Input C τ σ]

/-- The failure at a cursor whose next token, or whose end, does not fit. -/
def unfit [Token τ] (c : C) : ParseError C :=
  match Input.uncons c with
  | some (token, _) => .unexpected c token
  | none => .endOfInput c

def satisfy [Token τ] (test : τ → Bool) : Parser C τ :=
  fun c st => match Input.uncons c with
    | some (token, rest) =>
      if test token then some (.ok (token, rest), st)
      else some (.error (.unexpected c token), st)
    | none => some (.error (.endOfInput c), st)

/-- One token that passes a test, without its value. -/
def skipIf [Token τ] (test : τ → Bool) : Parser C Unit :=
  fun c st => match Input.uncons c with
    | some (token, rest) =>
      if test token then some (.ok ((), rest), st)
      else some (.error (.unexpected c token), st)
    | none => some (.error (.endOfInput c), st)

def endOfInput [Token τ] : Parser C Unit :=
  fun c st => match Input.uncons c with
    | some (token, _) =>
      some (.error ((ParseError.unexpected c token).expecting "end of input"), st)
    | none => some (.ok ((), c), st)

/-- The next `n` tokens. -/
def take (n : Nat) : Parser C σ :=
  fun c st => match Input.splitAt n c with
    | some success => some (.ok success, st)
    | none => some (.error (.new c (.tooFew n)), st)

/-- The cursor after the longest run of at most `n` tokens that pass a test. -/
def scan (test : τ → Bool) : Nat → C → C
  | 0, c => c
  | n + 1, c => match Input.uncons c with
    | some (token, rest) => if test token then scan test n rest else c
    | none => c

/-- The cursor after the longest run of tokens that pass a test. -/
def scanAll (test : τ → Bool) (c : C) : C :=
  scan test (Input.left c) c

def takeWhile (test : τ → Bool) : Parser C σ :=
  fun c st => some (.ok (Input.sliceTo c (scanAll test c), scanAll test c), st)

/-- The longest run of tokens that pass a test, and at least one token. -/
def takeWhile1 [Token τ] (test : τ → Bool) : Parser C σ :=
  fun c st =>
    let rest := scanAll test c
    if Input.position rest = Input.position c then some (.error (unfit c), st)
    else some (.ok (Input.sliceTo c rest, rest), st)

def skipWhile (test : τ → Bool) : Parser C Unit :=
  fun c st => some (.ok ((), scanAll test c), st)

end Packrat.Parser

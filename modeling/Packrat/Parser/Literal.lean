import Packrat.Parser.Basic

/-!
# Parsers of literals

A literal is compared with the characters of the tokens, one by one. A failure
is reported where the literal should have started and names the first character
that differs.

- `literal`: a literal as it is written, which it yields;
- `literalAnyCase`: a literal with ASCII letters in either case, which yields
  the tokens as they stand.
-/

namespace Packrat.Parser

variable {C τ σ : Type} [Input C τ σ] [Token τ]

/-- The cursor after tokens whose characters are the same as the given ones, or
the first character that is not there, with the one in its place. -/
def matchAll (same : Char → Char → Bool) : List Char → C → Except (Char × Option Char) C
  | [], c => .ok c
  | wanted :: more, c => match Input.uncons c with
    | some (token, rest) =>
      if same (Token.toChar token) wanted then matchAll same more rest
      else .error (wanted, some (Token.toChar token))
    | none => .error (wanted, none)

def literal (s : String) : Parser C String :=
  fun c st => match matchAll (· == ·) s.toList c with
    | .ok rest => some (.ok (s, rest), st)
    | .error (wanted, found) =>
      some (.error ((ParseError.new c (.mismatch wanted found s)).expecting (Quoted.text s)), st)

/-- Whether two characters are the same but for the case of ASCII letters. -/
def sameButCase (c d : Char) : Bool :=
  c.toLower == d.toLower

/-- A literal with ASCII letters in either case. -/
def literalAnyCase (s : String) : Parser C σ :=
  fun c st => match matchAll sameButCase s.toList c with
    | .ok rest => some (.ok (Input.sliceTo c rest, rest), st)
    | .error (wanted, found) =>
      some (.error ((ParseError.new c (.mismatch wanted found s)).expecting
        (Quoted.text s ++ " (any case)")), st)

end Packrat.Parser

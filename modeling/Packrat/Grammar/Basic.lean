import Packrat.Value.Operation
import Packrat.Error

/-!
# Grammars

A grammar is the description of a parser that yields values. It can name other
grammars, so that a set of them may be recursive, and it says which results are
to be stored. A grammar does not depend on the kind of source that it is run
over: its tests see the character that a token stands for.

- `Grammar`: the descriptions;
- `Reference`: what a grammar can name;
- `Grammar.sequence`, `Grammar.choice`, `Grammar.replace`: descriptions made of
  other ones.
-/

namespace Packrat

/-- A grammar named in another one. -/
inductive Reference where
  /-- A rule, which is built anew wherever it is used. -/
  | rule (name : String)
  /-- A parser that lasts and is shared by all that use it. -/
  | shared (name : String)
  deriving DecidableEq, Repr

/-- The description of a parser. -/
inductive Grammar where
  | pure (v : Value)
  /-- A token whose character passes a test. -/
  | satisfy (test : Char → Bool)
  | skipIf (test : Char → Bool)
  | endOfInput
  | take (n : Nat)
  /-- The longest run of tokens whose characters pass a test. -/
  | takeWhile (test : Char → Bool)
  /-- Such a run of at least one token. -/
  | takeWhile1 (test : Char → Bool)
  | skipWhile (test : Char → Bool)
  | literal (s : String)
  /-- A literal with ASCII letters in either case. -/
  | literalAnyCase (s : String)
  /-- A function applied to the value. -/
  | map (f : Value → Value) (g : Grammar)
  /-- A conversion of the value that may fail, for the reason given. -/
  | convert (name : String) (reason : Reason) (f : Value → Option Value) (g : Grammar)
  | both (g h : Grammar)
  | seqRight (g h : Grammar)
  | seqLeft (g h : Grammar)
  /-- One after the other, with the first value called with the second. -/
  | apply (g h : Grammar)
  /-- A grammar and then the one that its value leads to. -/
  | bind (g : Grammar) (k : Value → Grammar)
  | orElse (g h : Grammar)
  | label (name : String) (g : Grammar)
  /-- A label for what is expected at the start, where failures are reported. -/
  | lexeme (name : String) (g : Grammar)
  | optional (g : Grammar)
  /-- The value of a grammar, or another one. -/
  | option (default : Value) (g : Grammar)
  /-- A marker with what must follow it, or a value where there is no marker. -/
  | marked (default : Value) (marker body : Grammar)
  /-- The absence of what a grammar describes. -/
  | notFollowedBy (g : Grammar)
  | many (g : Grammar)
  | many1 (g : Grammar)
  | skipMany (g : Grammar)
  | skipMany1 (g : Grammar)
  /-- A grammar whose results are stored. -/
  | memo (g : Grammar)
  /-- A grammar that is built anew at each run. -/
  | fresh (g : Grammar)
  | call (r : Reference)
  /-- A grammar whose runs are counted. -/
  | tally (name : String) (g : Grammar)

namespace Grammar

/-- Yield a fixed value. -/
def replace (v : Value) (g : Grammar) : Grammar :=
  .map (fun _ => v) g

/-- A non-empty list of grammars one after the other, with nested pairs. -/
def sequence (first : Grammar) (more : List Grammar) : Grammar :=
  more.foldl .both first

def choice (first : Grammar) (more : List Grammar) : Grammar :=
  more.foldl .orElse first

def any : Grammar :=
  .satisfy fun _ => true

end Grammar

end Packrat

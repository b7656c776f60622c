import Packrat.Grammar.Parser

/-!
# Programs

A program names grammars: rules, which are built anew wherever they are used,
and shared parsers, which last, so that their memoised parts keep what they have
stored. Both may refer to each other and to themselves.

- `Program.level`: the parser of a name, with a bound on how deeply references
  are followed;
- `Program.depth`: a bound that is large enough for a run from a cursor;
- `Program.run`: a recorded run of a grammar.
-/

namespace Packrat

/-- Named grammars. -/
structure Program where
  rules : List (String × Grammar) := []
  shared : List (String × Grammar) := []

namespace Program

variable {C τ σ : Type} [Input C τ σ] [Token τ] [ToValue τ] [ToValue σ]

/-- The parser of a name, in which references are followed to the given depth.
Below it, as for an unknown name, there is no answer. -/
def level (program : Program) : Nat → Reference → Parser C Value
  | 0, _ => .silent
  | n + 1, .rule name => match program.rules.lookup name with
    | some g => .inFreshScope (g.parser (program.level n) .fresh)
    | none => .silent
  | n + 1, .shared name => match program.shared.lookup name with
    | some g => g.parser (program.level n) (.named name)
    | none => .silent

/-- How many references can be open at once in a run from a cursor that returns:
no name is open twice at one position, for it would be opened there forever. -/
def depth (program : Program) (c : C) : Nat :=
  (program.rules.length + program.shared.length) * (Input.left c + 1) + 1

/-- The parser of a grammar that is built for one run. -/
def parser (program : Program) (g : Grammar) : Parser C Value :=
  .inFreshScope fun c => g.parser (program.level (program.depth c)) .fresh c

/-- A recorded run of a grammar. -/
def run (program : Program) (g : Grammar) : Parser C Value :=
  .run (program.parser g)

end Program

end Packrat

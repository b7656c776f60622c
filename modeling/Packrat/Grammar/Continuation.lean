import Packrat.Grammar.Basic

/-!
# Continuations

Grammars that depend on the value before them, for use with `Grammar.bind`.

- `takeBy`: as many tokens as an integer says;
- `literalBy`, `literalAnyCaseBy`: the literal that is the text of the value;
- `switch`: a table by the text of the value.
-/

namespace Packrat.Grammar

/-- As many tokens as the value says, none if it is negative or no integer. -/
def takeBy : Value → Grammar
  | .int n => .take n.toInt.toNat
  | _ => .take 0

/-- The text of the value as a literal. -/
def literalBy (v : Value) : Grammar :=
  .literal v.str

/-- The text of the value as a literal with ASCII letters in either case. -/
def literalAnyCaseBy (v : Value) : Grammar :=
  .literalAnyCase v.str

/-- The first character of the text of the value, or a null. -/
def firstOf (v : Value) : Char :=
  v.characters.headD '\x00'

/-- The grammar in the first row whose key is the text of the value, or else the
given one. -/
def switch (rows : List (String × Grammar)) (otherwise : Grammar) (v : Value) : Grammar :=
  (rows.lookup v.str).getD otherwise

end Packrat.Grammar

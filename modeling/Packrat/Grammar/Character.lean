import Packrat.Grammar.Basic

/-!
# Grammars of characters

Tokens of a class of characters, each with a label that names the class.

- `char`, `notChar`, `oneOf`, `noneOf`: classes given by their members;
- `digit`, `hexDigit`, `lower`, `upper`, `letter`, `alphaNum`: ASCII classes;
- `space`, `skipSpaces`, `endOfLine`: blanks.
-/

namespace Packrat.Grammar

/-- A token whose character passes a test, with a label. -/
def labelled (name : String) (test : Char → Bool) : Grammar :=
  .label name (.satisfy test)

def char (c : Char) : Grammar :=
  labelled (Quoted.char c) (· == c)

def notChar (c : Char) : Grammar :=
  labelled ("anything but " ++ Quoted.char c) (· != c)

def oneOf (set : String) : Grammar :=
  labelled ("one of " ++ Quoted.text set) set.toList.contains

def noneOf (set : String) : Grammar :=
  labelled ("none of " ++ Quoted.text set) fun c => !set.toList.contains c

def digit : Grammar :=
  labelled "digit" Char.isDigit

/-- Whether a character is a hexadecimal digit, in either case. -/
def isHexDigit (c : Char) : Bool :=
  c.isDigit || ('a' ≤ c && c ≤ 'f') || ('A' ≤ c && c ≤ 'F')

def hexDigit : Grammar :=
  labelled "hex digit" isHexDigit

def lower : Grammar :=
  labelled "lowercase letter" Char.isLower

def upper : Grammar :=
  labelled "uppercase letter" Char.isUpper

def letter : Grammar :=
  .orElse lower upper

def alphaNum : Grammar :=
  .orElse letter digit

/-- Whether a character is a space, a tab, a line feed or a carriage return. -/
def isBlank (c : Char) : Bool :=
  c == ' ' || c == '\t' || c == '\n' || c == '\r'

def space : Grammar :=
  labelled "whitespace" isBlank

def skipSpaces : Grammar :=
  .skipMany space

/-- A line feed, alone or after a carriage return. -/
def endOfLine : Grammar :=
  .orElse (replace .unit (char '\n')) (replace .unit (.literal "\r\n"))

/-- A grammar with a label as a record. The part that it labels has no form of
its own. -/
def describe? : Grammar → Option String
  | .label name _ => some (Quoted.record "Label"
      [("parser", Quoted.text "<parser>"), ("label", Quoted.text name)])
  | _ => none

end Packrat.Grammar

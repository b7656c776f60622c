import Packrat.Text.Printable

/-!
# Quoted characters and texts

Messages and labels show a character in single quotes and a text in double
quotes. A tab, a line feed, a carriage return, a null, a backslash and the
quote in use are escaped by one letter or mark; any other character that is
not printable is escaped by its code point.

- `Quoted.char`, `Quoted.text`: the quoted forms;
- `Quoted.list`, `Quoted.record`: the forms of a list and of a record built
  from the forms of their parts.
-/

namespace Packrat.Quoted

/-- A code point in lower-case hexadecimal, without padding. -/
def hex (n : Nat) : String :=
  String.ofList (Nat.toDigits 16 n)

/-- A character as it stands between two quotes of the given kind. -/
def escape (quote c : Char) : String :=
  if c = '\x00' then "\\0"
  else if c = '\t' then "\\t"
  else if c = '\n' then "\\n"
  else if c = '\r' then "\\r"
  else if c = '\\' then "\\\\"
  else if c = quote then "\\" ++ quote.toString
  else if Printable.isPrintable c then c.toString
  else "\\u\x7b" ++ hex c.toNat ++ "\x7d"

/-- A character in single quotes. -/
def char (c : Char) : String :=
  "\x27" ++ escape '\x27' c ++ "\x27"

def text (s : String) : String :=
  "\"" ++ s.foldl (fun shown c => shown ++ escape '\x22' c) "" ++ "\""

def list (forms : List String) : String :=
  "[" ++ ", ".intercalate forms ++ "]"

def record (name : String) (fields : List (String × String)) : String :=
  name ++ " \x7b " ++ ", ".intercalate (fields.map fun field => field.1 ++ ": " ++ field.2) ++ " \x7d"

end Packrat.Quoted

import Packrat.Text.Utf8
import Packrat.Text.Quoted

/-!
# Tokens

A source is read token by token. Whatever its type, a token stands for one
character, which is all that predicates and literals look at.

- `Token`: what the parsers need to know of a token type;
- the instances for characters, which stand for themselves, and for bytes,
  which stand for the characters of the same code.
-/

namespace Packrat

/-- A type of tokens. -/
class Token (τ : Type) where
  isNewline : τ → Bool
  /-- The character that a token stands for. -/
  toChar : τ → Char
  /-- The text of a run of tokens. -/
  text : List τ → String
  describe : τ → String

instance : Token Char where
  isNewline c := c == '\n'
  toChar c := c
  text := String.ofList
  describe := Quoted.char

/-- A byte stands for the character of its code, while a run of bytes is read
as UTF-8. -/
instance : Token UInt8 where
  isNewline b := b == 10
  toChar b := Char.ofNat b.toNat
  text := Utf8.text
  describe b := toString b.toNat

end Packrat

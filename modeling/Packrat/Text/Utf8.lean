/-!
# Reading bytes as text

Bytes are read as UTF-8, one byte at a time. Between two bytes the reader is
either between characters or inside one, and then it knows the range that the
next byte must lie in. Bytes that cannot be completed are replaced: each
maximal start of a character that is not carried through becomes one U+FFFD.

- `decodeFrom`: the characters read from a list of bytes, from either state;
- `text`: the text of a list of bytes that starts between characters.
-/

namespace Packrat.Utf8

/-- A character that has begun: the value of the bits read so far, how many
bytes are missing, and the range that the next of them must lie in. -/
structure Pending where
  bits : Nat
  missing : Nat
  low : UInt8
  high : UInt8
  deriving DecidableEq, Repr

/-- What one byte leads to. -/
inductive Step where
  | complete (c : Char)
  | pending (p : Pending)
  | invalid
  deriving DecidableEq, Repr

/-- U+FFFD stands for what cannot be read. -/
def replacement : Char := '\uFFFD'

/-- The step from between two characters. The narrower ranges after `E0`, `ED`,
`F0` and `F4` leave out overlong forms, surrogates and values above U+10FFFF. -/
def start (b : UInt8) : Step :=
  if b < 0x80 then .complete (Char.ofNat b.toNat)
  else if b < 0xC2 then .invalid
  else if b < 0xE0 then .pending ⟨b.toNat - 0xC0, 1, 0x80, 0xBF⟩
  else if b < 0xF0 then
    .pending ⟨b.toNat - 0xE0, 2, if b = 0xE0 then 0xA0 else 0x80, if b = 0xED then 0x9F else 0xBF⟩
  else if b < 0xF5 then
    .pending ⟨b.toNat - 0xF0, 3, if b = 0xF0 then 0x90 else 0x80, if b = 0xF4 then 0x8F else 0xBF⟩
  else .invalid

/-- The step inside a character: a byte of the range adds six bits. -/
def Pending.next (p : Pending) (b : UInt8) : Step :=
  if p.low ≤ b ∧ b ≤ p.high then
    let bits := p.bits * 64 + (b.toNat - 0x80)
    if p.missing = 1 then .complete (Char.ofNat bits)
    else .pending ⟨bits, p.missing - 1, 0x80, 0xBF⟩
  else .invalid

/-- The characters that a byte completes between characters, and the state
after it. -/
def advance (b : UInt8) : List Char × Option Pending :=
  match start b with
  | .complete c => ([c], none)
  | .pending p => ([], some p)
  | .invalid => ([replacement], none)

/-- The characters that a byte completes inside a character, and the state
after it. A byte that does not go on with the character ends it, and is read
again from between characters. -/
def Pending.advance (p : Pending) (b : UInt8) : List Char × Option Pending :=
  match p.next b with
  | .complete c => ([c], none)
  | .pending q => ([], some q)
  | .invalid => (replacement :: (Utf8.advance b).1, (Utf8.advance b).2)

/-- The characters of a list of bytes, read from the given state. -/
def decodeFrom : Option Pending → List UInt8 → List Char
  | none, [] => []
  | some _, [] => [replacement]
  | none, b :: rest => (advance b).1 ++ decodeFrom (advance b).2 rest
  | some p, b :: rest => (p.advance b).1 ++ decodeFrom (p.advance b).2 rest

def text (bytes : List UInt8) : String :=
  String.ofList (decodeFrom none bytes)

end Packrat.Utf8

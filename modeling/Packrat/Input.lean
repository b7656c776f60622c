import Packrat.Location

/-!
# Cursors over a source

A cursor is a place in a source: some of its tokens are consumed, the others
are still to be read. The parsers use a cursor only through the operations of
`Input`, so they run over every kind of source.

- `SourceId`, `Place`: what a memo table knows of a source and of a cursor;
- `Input`: the operations on a cursor;
- `Input.left`: a bound on the number of tokens still to be read.
-/

namespace Packrat

/-- The content of a source, and the number of the buffer that holds it. A
source that begins like another one may share its buffer. -/
structure Source (α : Type) where
  buffer : Nat
  content : α
  deriving DecidableEq, Repr

/-- The identity of a source: its buffer, and its size in units of positions.
Two sources of one buffer and one size have the same content. -/
structure SourceId where
  buffer : Nat
  size : Nat
  deriving DecidableEq, Repr

/-- A position in a source, which is the key of a memo table. -/
structure Place where
  source : SourceId
  position : Nat
  deriving DecidableEq, Repr

/-- The operations on cursors of type `C`, with tokens of type `τ` and slices of
type `σ`. -/
class Input (C : Type) (τ σ : outParam Type) where
  source : C → SourceId
  /-- The position in the source, from zero to its size. -/
  position : C → Nat
  /-- The next token and the cursor after it, unless the input ends. -/
  uncons : C → Option (τ × C)
  /-- The next `n` tokens and the cursor after them, if there are as many. -/
  splitAt : Nat → C → Option (σ × C)
  /-- The tokens from the first cursor to the second, none if it is behind. -/
  sliceTo : C → C → σ
  rest : C → σ
  count : C → Nat
  location : C → Location

namespace Input

variable {C τ σ : Type} [Input C τ σ]

/-- The memo key of a cursor. -/
def place (c : C) : Place :=
  ⟨source c, position c⟩

/-- The distance to the end of the source. A token takes up at least one unit
of it, so no cursor has more tokens still to be read. -/
def left (c : C) : Nat :=
  (source c).size - position c

def isEmpty (c : C) : Bool :=
  (source c).size ≤ position c

end Input

/-- A type whose values have a form in error descriptions. -/
class Described (α : Type) where
  describe : α → String

end Packrat

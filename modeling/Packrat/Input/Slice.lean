import Packrat.Input
import Packrat.Token

/-!
# Cursors over an array of tokens

A position counts the tokens before it.

- `SliceCursor`: an array with an index into it;
- `SliceCursor.ofSource`: the cursor at the start.
-/

namespace Packrat

/-- An array of tokens and an index, at most its size. -/
structure SliceCursor (τ : Type) where
  source : Source (Array τ)
  index : Nat
  index_le : index ≤ source.content.size
  deriving DecidableEq

namespace SliceCursor

variable {τ : Type}

/-- The cursor before the first token. -/
def ofSource (source : Source (Array τ)) : SliceCursor τ :=
  ⟨source, 0, Nat.zero_le _⟩

/-- The tokens from the cursor up to an index. -/
def upTo (c : SliceCursor τ) (stop : Nat) : List τ :=
  (c.source.content.extract c.index stop).toList

def before (c : SliceCursor τ) : List τ :=
  (c.source.content.extract 0 c.index).toList

/-- Whether two cursors have equal tokens and equal positions, be the buffers
the same or not. -/
def sameTokens [DecidableEq τ] (c d : SliceCursor τ) : Bool :=
  c.source.content == d.source.content && c.index == d.index

/-- The source made of the first `n` tokens, in the same buffer. -/
def takeSource (source : Source (Array τ)) (n : Nat) : Source (Array τ) :=
  { source with content := source.content.extract 0 n }

end SliceCursor

instance {τ : Type} [Token τ] : Input (SliceCursor τ) τ (List τ) where
  source c := ⟨c.source.buffer, c.source.content.size⟩
  position c := c.index
  uncons c :=
    if h : c.index < c.source.content.size then
      some (c.source.content[c.index], { c with index := c.index + 1, index_le := h })
    else none
  splitAt n c :=
    if h : c.index + n ≤ c.source.content.size then
      some (c.upTo (c.index + n), { c with index := c.index + n, index_le := h })
    else none
  sliceTo c d := c.upTo d.index
  rest c := c.upTo c.source.content.size
  count c := c.source.content.size - c.index
  location c := Location.after Token.isNewline c.before

instance {τ : Type} [Token τ] : Described (SliceCursor τ) where
  describe c :=
    let data := ("data", Quoted.list (c.source.content.toList.map Token.describe))
    if c.index < c.source.content.size then
      Quoted.record "Valid" [data, ("position", toString c.index)]
    else Quoted.record "EndOfFile" [data]

end Packrat

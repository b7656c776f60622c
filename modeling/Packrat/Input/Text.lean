import Packrat.Input
import Packrat.Token

/-!
# Cursors over a text

The tokens of a text are its characters. A position counts the bytes of the
text before it, so that a cursor is moved without counting characters again.

- `TextCursor`: a text with a position between two of its characters;
- `TextCursor.ofSource`: the cursor at the start;
- `TextCursor.forward?`: the position a number of characters further on.
-/

namespace Packrat

/-- A text and a position between two of its characters. -/
structure TextCursor where
  source : Source String
  pos : source.content.Pos
  deriving DecidableEq

namespace TextCursor

/-- The cursor before the first character. -/
def ofSource (source : Source String) : TextCursor :=
  ⟨source, source.content.startPos⟩

/-- The position `n` characters further on, if there are as many. -/
def forward? {s : String} : Nat → s.Pos → Option s.Pos
  | 0, pos => some pos
  | n + 1, pos => if h : pos = s.endPos then none else forward? n (pos.next h)

def before (c : TextCursor) : List Char :=
  (c.source.content.sliceTo c.pos).copy.toList

def rest (c : TextCursor) : String :=
  (c.source.content.sliceFrom c.pos).copy

/-- The text from the cursor up to the position of the other one. -/
def sliceTo (c d : TextCursor) : String :=
  if h : d.pos.offset.IsValid c.source.content then
    c.source.content.extract c.pos ⟨d.pos.offset, h⟩
  else ""

/-- Whether two cursors have equal texts and equal positions, be the buffers
the same or not. -/
def sameText (c d : TextCursor) : Bool :=
  c.source.content == d.source.content && c.pos.offset == d.pos.offset

/-- The source made of the first `n` characters, in the same buffer. -/
def takeSource (source : Source String) (n : Nat) : Source String :=
  { source with content := (source.content.take n).copy }

end TextCursor

instance : Input TextCursor Char String where
  source c := ⟨c.source.buffer, c.source.content.utf8ByteSize⟩
  position c := c.pos.offset.byteIdx
  uncons c :=
    if h : c.pos = c.source.content.endPos then none
    else some (c.pos.get h, { c with pos := c.pos.next h })
  splitAt n c :=
    (TextCursor.forward? n c.pos).map fun pos =>
      (c.source.content.extract c.pos pos, { c with pos })
  sliceTo := TextCursor.sliceTo
  rest := TextCursor.rest
  count c := c.rest.length
  location c := Location.after Token.isNewline c.before

instance : Described TextCursor where
  describe c := Quoted.record "StrCursor"
    [("text", Quoted.text c.source.content), ("position", toString c.pos.offset.byteIdx)]

end Packrat

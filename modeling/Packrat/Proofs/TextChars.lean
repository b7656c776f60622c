import Packrat.Input.Slice.Lemmas
import Packrat.Input.Text.Lemmas
import Packrat.Proofs.Cursors
import Packrat.Proofs.Pairs
import Packrat.Proofs.Spelling

/-!
# Texts and arrays of characters

A text and the array of its characters are read in lockstep. A position in the text
is the number of bytes of the characters before it, and a position in the array is
the number of those characters.

* `TextCursor.toChars`: the cursor in the array of the characters of a text, which is reached
  there by as many characters (`TextCursor.splitAt_toChars`);
* `textChars`: cursors in texts, and those in the arrays of their characters;
* `Session.Paired.text_chars`: the runs of paired sessions correspond, with values
  that are spelled alike.
-/

namespace Packrat

open Input List

namespace TextCursor

/-- The characters on both sides of a cursor are those of the text. -/
theorem toList_content (c : TextCursor) :
    c.source.content.toList = InputView.before c ++ InputView.after c := by
  rw [← before_append_after, String.toList_ofList]

/-- The cursor in the array of the characters of a text that has as many characters
before it. -/
def toChars (c : TextCursor) : SliceCursor Char where
  source := ⟨c.source.buffer, c.source.content.toList.toArray⟩
  index := (InputView.before c).length
  index_le := by
    rw [List.size_toArray, toList_content, length_append]
    exact Nat.le_add_right _ _

variable (c : TextCursor)

theorem before_toChars : InputView.before c.toChars = InputView.before c := by
  rw [SliceCursor.before_eq]
  show c.source.content.toList.take (InputView.before c).length = _
  rw [toList_content, take_left]

theorem after_toChars : InputView.after c.toChars = InputView.after c := by
  rw [SliceCursor.after_eq]
  show c.source.content.toList.drop (InputView.before c).length = _
  rw [toList_content, drop_left]

theorem toChars_ofSource (source : Source String) :
    (ofSource source).toChars = .ofSource ⟨source.buffer, source.content.toList.toArray⟩ := by
  have hBefore : InputView.before (ofSource source) = [] := by
    simp [InputView.before, TextCursor.before, ofSource]
  unfold toChars SliceCursor.ofSource
  simp only [hBefore, length_nil]
  rfl

end TextCursor

/-- The characters of a text as they are. Slices of the text are texts, and slices of
the array are lists of characters. -/
theorem textChars_recoding :
    Recoding TextCursor (SliceCursor Char) (fun x => x)
      (Value.SpelledAlike { texts := true }) where
  injective h := h
  toChar _ := rfl
  isNewline _ := rfl
  toValue _ := rfl
  slice s := by
    rw [map_id']
    exact congrArg Value.chars String.toList_ofList
  congruence := Value.spelledAlike_congruence _

/-- The cursors in texts of one memory, and those in the arrays of the characters. -/
def textChars (memory : Nat → List Char) : Alignment TextCursor (SliceCursor Char) :=
  .recoded textChars_recoding memory

theorem textChars_cursor_iff {memory : Nat → List Char} {c : TextCursor} {d : SliceCursor Char} :
    (textChars memory).cursor c d ↔ InMemory memory c ∧ d = c.toChars := by
  constructor
  · rintro ⟨hMemory, hBuffer, hBefore, hAfter⟩
    rw [map_id', ← c.before_toChars] at hBefore
    rw [map_id', ← c.after_toChars] at hAfter
    exact ⟨hMemory, LawfulInput.eq_of_view hBuffer hBefore hAfter⟩
  · rintro ⟨hMemory, rfl⟩
    refine ⟨hMemory, rfl, ?_, ?_⟩
    · rw [map_id', c.before_toChars]
    · rw [map_id', c.after_toChars]

/-- Reading the same characters leads from one place to one place. -/
theorem Reads.toChars {c d : TextCursor} {tokens : List Char} (h : Reads c tokens d) :
    Reads c.toChars tokens d.toChars where
  buffer_eq := h.buffer_eq
  before_eq := by rw [c.before_toChars, d.before_toChars, h.before_eq]
  after_eq := by rw [c.after_toChars, d.after_toChars, h.after_eq]

/-- A number of characters after the start of a text, and after the start of the array. -/
theorem TextCursor.splitAt_toChars {source : Source String} {k : Nat} {s : String}
    {c : TextCursor} (h : splitAt k (ofSource source) = some (s, c)) :
    splitAt k (SliceCursor.ofSource ⟨source.buffer, source.content.toList.toArray⟩) =
      some (s.toList, c.toChars) := by
  obtain ⟨tokens, hReads, rfl, rfl⟩ := reads_of_splitAt h
  have hChars := hReads.toChars
  rw [toChars_ofSource] at hChars
  rw [splitAt_of_reads hChars]
  have hSlice : (sliceOf TextCursor tokens).toList = tokens := String.toList_ofList
  rw [hSlice]
  rfl

/-- A position in a text and one in the array of its characters: the first one is
the number of bytes of as many characters as the second one says. -/
def ByteOffset (s : String) (p q : Nat) : Prop :=
  p = (String.ofList (s.toList.take q)).utf8ByteSize

theorem byteOffset_of_positions {memory : Nat → List Char} {c : TextCursor}
    {d : SliceCursor Char} {p q : Nat} (h : (textChars memory).Positions c d p q) :
    ByteOffset c.source.content p q := by
  obtain ⟨c', d', hReaches, rfl, rfl⟩ := h
  obtain ⟨-, rfl⟩ := textChars_cursor_iff.mp hReaches.cursor
  obtain ⟨tokens, hReads⟩ := hReaches.left
  unfold ByteOffset
  rw [c.toList_content, ← hReads.content_eq, LawfulInput.position_eq, TextCursor.widthOf_eq]
  show _ = (String.ofList (take (InputView.before c').length _)).utf8ByteSize
  rw [take_left]

namespace Session

/-- The runs of paired sessions over texts and over arrays of their characters
correspond: a run returns on one side if and only if it does on the other one, in
the same place, with values that are spelled alike, the same labels and the same
words, and a position in the text is the number of bytes of as many characters as
the position in the array says, in the record too. The cursors are reached by as many
characters from the start of the text and of the array. -/
theorem Paired.text_chars {memory : Nat → List Char} {s : Session TextCursor}
    {t : Session (SliceCursor Char)} (h : Paired (textChars memory) s t) {c : TextCursor}
    (hMemory : InMemory memory c) {g : Grammar}
    (hAlike : g.Alike (Value.SpelledAlike { texts := true }) True g) :
    (∀ source k slice, splitAt k (TextCursor.ofSource source) = some (slice, c) →
      splitAt k (SliceCursor.ofSource ⟨source.buffer, source.content.toList.toArray⟩) =
        some (slice.toList, c.toChars)) ∧
    Option.Rel (fun x y => SameReport (fun x => x) (ByteOffset c.source.content)
        (Value.SpelledAlike { texts := true }) x.1 y.1)
      (s.parse g c) (t.parse g c.toChars) := by
  refine ⟨fun _ _ _ hSplit => TextCursor.splitAt_toChars hSplit, ?_⟩
  have hMatched : (textChars memory).Matched memory _ :=
    Alignment.recoded_matched textChars_recoding memory
  have hRel := h.parse_rel hMatched (textChars_cursor_iff.mpr ⟨hMemory, rfl⟩) hAlike
  generalize s.parse g c = x at hRel ⊢
  generalize t.parse g c.toChars = y at hRel ⊢
  cases hRel with
  | none => exact .none
  | some hReported =>
    exact .some (Alignment.Reported.sameReport hReported byteOffset_of_positions)

/-- A word is read and stored on both sides after the first character, and then it is read
again. -/
theorem text_chars_of_stored :
    ∃ (s : Session TextCursor) (t : Session (SliceCursor Char)) (c : TextCursor),
      splitAt 1 (TextCursor.ofSource ⟨0, "aé1"⟩) = some ("a", c) ∧
      splitAt 1 (SliceCursor.ofSource ⟨0, #['a', 'é', '1']⟩) = some (['a'], c.toChars) ∧
      Paired (textChars fun _ => ['a', 'é', '1']) s t ∧ (s.table "word").size = 1 ∧
      Option.Rel (fun x y => SameReport (fun x => x) (ByteOffset "aé1")
          (Value.SpelledAlike { texts := true }) x.1 y.1)
        (s.parse (.call (.shared "word")) c) (t.parse (.call (.shared "word")) c.toChars) := by
  let program : Program := { shared := [("word", .memo (.takeWhile1 fun c => c != '1'))] }
  have hProgram : program.Alike (Value.SpelledAlike { texts := true }) True program :=
    ⟨.nil, .cons ⟨rfl, .memo trivial (.takeWhile1 _)⟩ .nil⟩
  obtain ⟨c, x, s, y, t, hSplit, hContent, hMemory, hLeft, hSize, hRight⟩ : ∃ c x s y t,
      splitAt 1 (TextCursor.ofSource ⟨0, "aé1"⟩) = some ("a", c) ∧ c.source.content = "aé1" ∧
      InMemory (fun _ => ['a', 'é', '1']) c ∧
      ({ program } : Session TextCursor).parse (.call (.shared "word")) c = some (x, s) ∧
      (s.table "word").size = 1 ∧
      ({ program } : Session (SliceCursor Char)).parse (.call (.shared "word")) c.toChars =
        some (y, t) := ⟨_, _, _, _, _, rfl, rfl, ⟨[], rfl⟩, rfl, rfl, rfl⟩
  have hPaired : Paired (textChars fun _ => ['a', 'é', '1']) s t :=
    .parse (.start hProgram) (.call _) (textChars_cursor_iff.mpr ⟨hMemory, rfl⟩) hLeft hRight
  obtain ⟨hAdvanced, hReports⟩ := hPaired.text_chars hMemory (g := .call (.shared "word")) (.call _)
  rw [hContent] at hReports
  exact ⟨s, t, c, hSplit, hAdvanced _ _ _ hSplit, hPaired, hSize, hReports⟩

end Session

end Packrat

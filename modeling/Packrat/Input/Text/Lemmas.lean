import Packrat.Input.Text
import Packrat.Input.Lawful

/-!
# The laws of cursors over a text

A character takes up the bytes of its UTF-8 form, so a position is the number
of bytes of the characters before it.
-/

namespace Packrat

open Input

namespace TextCursor

instance : InputView TextCursor Char String where
  before := TextCursor.before
  after c := c.rest.toList
  width := Char.utf8Size
  slice := String.ofList

@[simp]
theorem before_ofSource (source : Source String) : InputView.before (ofSource source) = [] := by
  simp [InputView.before, TextCursor.before, ofSource]

@[simp]
theorem after_ofSource (source : Source String) :
    InputView.after (ofSource source) = source.content.toList := by
  simp [InputView.after, rest, ofSource]

theorem splits (c : TextCursor) :
    c.pos.Splits (String.ofList (InputView.before c)) (String.ofList (InputView.after c)) := by
  simpa [InputView.before, InputView.after, TextCursor.before, rest] using c.pos.splits

/-- The two sides of a position determine the view of a cursor there. -/
theorem view_of_splits {c : TextCursor} {s t : List Char}
    (h : c.pos.Splits (String.ofList s) (String.ofList t)) :
    InputView.before c = s ∧ InputView.after c = t := by
  have hEq := c.splits.eq h
  exact ⟨String.ofList_injective hEq.1, String.ofList_injective hEq.2⟩

theorem widthOf_eq (tokens : List Char) :
    widthOf TextCursor tokens = (String.ofList tokens).utf8ByteSize := by
  induction tokens with
  | nil => rfl
  | cons c tokens ih =>
    rw [widthOf_cons, ih, String.ofList_cons]
    simp [InputView.width]

theorem before_append_after (c : TextCursor) :
    String.ofList (InputView.before c ++ InputView.after c) = c.source.content := by
  rw [String.ofList_append]
  exact c.splits.eq_append.symm

/-- A cursor of the same source is reached by reading the characters by which
its left side is longer. -/
theorem reads_of_splits {c : TextCursor} {pos : c.source.content.Pos} {s t : List Char}
    (hAfter : InputView.after c = s ++ t)
    (h : pos.Splits (String.ofList (InputView.before c ++ s)) (String.ofList t)) :
    Reads c s { c with pos } where
  buffer_eq := rfl
  before_eq := (view_of_splits (c := { c with pos }) h).1
  after_eq := by rw [(view_of_splits (c := { c with pos }) h).2, hAfter]

/-- A position from which the rest of a text is not empty moves over the first
character of the rest. -/
theorem splits_next {s : String} {pos : s.Pos} {t u : List Char} {c : Char}
    (h : pos.Splits (String.ofList t) (String.ofList (c :: u))) :
    ∃ hEnd, (pos.next hEnd).Splits (String.ofList (t ++ [c])) (String.ofList u) := by
  rw [String.ofList_cons] at h
  refine ⟨h.ne_endPos_of_singleton, ?_⟩
  rw [String.ofList_append, ← String.singleton_eq_ofList]
  exact h.next

/-- Moving forward moves as many characters from the right side to the left. -/
theorem forward?_splits {s : String} (n : Nat) :
    ∀ {pos : s.Pos} {t u : List Char}, pos.Splits (String.ofList t) (String.ofList u) →
      n ≤ u.length → ∃ stop, forward? n pos = some stop ∧
        stop.Splits (String.ofList (t ++ u.take n)) (String.ofList (u.drop n)) := by
  induction n with
  | zero =>
    intro pos t u h _
    exact ⟨pos, rfl, by simpa using h⟩
  | succ n ih =>
    intro pos t u h hLength
    cases u with
    | nil => simp at hLength
    | cons c u =>
      obtain ⟨hEnd, hNext⟩ := splits_next h
      obtain ⟨stop, hForward, hStop⟩ := ih hNext (by simpa using hLength)
      refine ⟨stop, ?_, by simpa using hStop⟩
      rw [forward?, dif_neg hEnd, hForward]

/-- There is no moving forward over more characters than are left. -/
theorem forward?_eq_none {s : String} (n : Nat) :
    ∀ {pos : s.Pos} {t u : List Char}, pos.Splits (String.ofList t) (String.ofList u) →
      u.length < n → forward? n pos = none := by
  induction n with
  | zero => intro pos t u _ hLength; simp at hLength
  | succ n ih =>
    intro pos t u h hLength
    rw [forward?]
    split
    · rfl
    · rename_i hEnd
      cases u with
      | nil => exact absurd (h.eq_endPos_iff.mpr rfl) hEnd
      | cons c u =>
        obtain ⟨_, hNext⟩ := splits_next h
        exact ih hNext (by simpa using hLength)

/-- The text between two positions. -/
theorem extract_eq {s : String} {start stop : s.Pos} {t u v : List Char}
    (hStart : start.Splits (String.ofList t) (String.ofList (u ++ v)))
    (hStop : stop.Splits (String.ofList (t ++ u)) (String.ofList v)) :
    s.extract start stop = String.ofList u := by
  rw [String.ofList_append] at hStart hStop
  obtain ⟨hLe, hCopy⟩ := String.copy_slice_eq_iff_splits.mpr ⟨_, _, hStart, hStop⟩
  rw [String.extract_eq_copy_slice _ _ hLe, hCopy]

/-- The text between two positions that are out of order is empty. -/
theorem extract_behind {s : String} {start stop : s.Pos} (h : stop ≤ start) :
    s.extract start stop = "" := by
  rw [← String.toByteArray_inj, String.toByteArray_extract]
  exact ByteArray.extract_eq_empty_iff.mpr (by
    have : stop.offset.byteIdx ≤ start.offset.byteIdx := h
    omega)

/-- A cursor that is reached by reading is a position of the same source. -/
theorem exists_pos_of_reads {c d : TextCursor} {tokens : List Char} (h : Reads c tokens d) :
    ∃ pos, d = { c with pos } := by
  have hContent : d.source.content = c.source.content := by
    rw [← before_append_after, ← before_append_after, h.before_eq, h.after_eq, List.append_assoc]
  have hBuffer : d.source.buffer = c.source.buffer := h.buffer_eq
  obtain ⟨⟨_, _⟩, pos⟩ := d
  cases hBuffer
  cases hContent
  exact ⟨pos, rfl⟩

theorem sliceTo_withPos (c : TextCursor) (pos : c.source.content.Pos) :
    c.sliceTo { c with pos } = c.source.content.extract c.pos pos :=
  dif_pos pos.isValid

end TextCursor

open TextCursor in
instance : LawfulInput TextCursor where
  width_pos := Char.utf8Size_pos
  position_eq c := by
    rw [widthOf_eq, ← String.byteIdx_rawEndPos, ← c.splits.offset_eq_rawEndPos]
    rfl
  size_eq c := by
    rw [widthOf_eq, before_append_after]
    rfl
  eq_of_view {c d} hBuffer hBefore hAfter := by
    have hContent : c.source.content = d.source.content := by
      rw [← before_append_after, ← before_append_after, hBefore, hAfter]
    have hOffset : c.pos.offset = d.pos.offset := by
      rw [c.splits.offset_eq_rawEndPos, d.splits.offset_eq_rawEndPos, hBefore]
    obtain ⟨⟨_, _⟩, pos⟩ := c
    obtain ⟨⟨_, _⟩, pos'⟩ := d
    cases hBuffer
    cases hContent
    cases String.Pos.ext hOffset
    rfl
  uncons_eq_none {c} h := by
    have hEnd : c.pos = c.source.content.endPos := by
      rw [c.splits.eq_endPos_iff, h, String.ofList_nil]
    simp only [uncons, dif_pos hEnd]
  uncons_eq_some {c token tokens} h := by
    have hSplits := c.splits
    rw [h] at hSplits
    obtain ⟨hEnd, hNext⟩ := splits_next hSplits
    refine ⟨_, ?_, reads_of_splits h hNext⟩
    rw [String.ofList_append, ← String.singleton_eq_ofList] at hNext
    have hGet : c.pos.get hEnd = token := hNext.get_eq_of_singleton
    simp only [uncons, dif_neg hEnd, hGet]
  splitAt_eq_none {c n} h := by
    simp only [splitAt, forward?_eq_none n c.splits h, Option.map_none]
  splitAt_eq_some {c n} h := by
    obtain ⟨stop, hForward, hStop⟩ := forward?_splits n c.splits h
    have hReads := reads_of_splits (List.take_append_drop n _).symm hStop
    refine ⟨_, ?_, hReads⟩
    have hStart := c.splits
    rw [← List.take_append_drop n (InputView.after c)] at hStart
    simp only [splitAt, hForward, Option.map_some, extract_eq hStart hStop]
    rfl
  sliceTo_eq {c d tokens} h := by
    obtain ⟨pos, rfl⟩ := exists_pos_of_reads h
    have hStart := c.splits
    have hStop := TextCursor.splits { c with pos }
    rw [h.after_eq] at hStart
    rw [h.before_eq] at hStop
    exact (sliceTo_withPos c pos).trans (extract_eq hStart hStop)
  sliceTo_behind {c d tokens} h := by
    obtain ⟨pos, rfl⟩ := exists_pos_of_reads h
    have hLe : d.pos ≤ pos := (d.splits.le_iff_exists_eq_append
      (TextCursor.splits { d with pos })).mpr ⟨String.ofList tokens, by
        rw [h.before_eq, String.ofList_append], by rw [h.after_eq, String.ofList_append]⟩
    exact (sliceTo_withPos { d with pos } d.pos).trans (extract_behind hLe)
  rest_eq c := String.ofList_toList.symm
  count_eq _ := String.length_toList.symm
  location_eq _ := rfl

end Packrat

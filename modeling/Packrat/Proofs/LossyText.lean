import Mathlib.Data.Nat.Find
import Packrat.Input.Slice.Lemmas
import Packrat.Input.Text.Lemmas
import Packrat.Proofs.Cursors
import Packrat.Proofs.Encodings

/-!
# The text of bytes

Reading bytes as text divides them into characters and into parts that no character begins
with: such a part is the longest one with which a character could still begin, or a single
byte, and one U+FFFD stands for it. Nothing is lost where all parts are characters, which is
so of exactly the valid encodings. A cursor over the bytes of a text that stands at the
position of a cursor over the text stands between two characters, so both have the same text
on either side.

* `Utf8.Subpart`: the bytes that one U+FFFD stands for;
* `Utf8.Decodes`: how bytes are divided, which determines the text of them
  (`Utf8.decodeFrom_eq_iff`);
* `Abreast`: a cursor over a text and one over its bytes, at one position;
* `LossyTextLaws`, `lossyTextLaws`: the texts of bytes and of cursors over them.
-/

namespace Packrat

open Input List
open String (utf8EncodeChar)

/-! ## The parts of bytes -/

namespace Utf8

/-- Some bytes and those after them, where no character begins. They are the longest ones with
which one could, or a single byte. -/
structure Subpart (bytes rest : List UInt8) : Prop where
  ne_nil : bytes ≠ []
  no_char : ∀ c, ¬utf8EncodeChar c <+: bytes ++ rest
  begins : Unfinished bytes ∨ bytes.length = 1
  longest : ∀ start, start <+: bytes ++ rest → Unfinished start → start <+: bytes

/-- The characters of some bytes: those that are encoded, and one U+FFFD for each part
between them. -/
inductive Decodes : List UInt8 → List Char → Prop
  | nil : Decodes [] []
  | char {bytes : List UInt8} {chars : List Char} (c : Char) (h : Decodes bytes chars) :
    Decodes (utf8EncodeChar c ++ bytes) (c :: chars)
  | part {bytes rest : List UInt8} {chars : List Char} (hPart : Subpart bytes rest)
    (h : Decodes rest chars) : Decodes (bytes ++ rest) (replacement :: chars)

/-- The characters of the bytes that come after a step. -/
def Step.follow : Step → List UInt8 → List Char
  | .complete c, rest => c :: decodeFrom none rest
  | .pending p, rest => decodeFrom (some p) rest
  | .invalid, rest => replacement :: decodeFrom none rest

theorem decodeFrom_cons (b : UInt8) (rest : List UInt8) :
    decodeFrom none (b :: rest) = (start b).follow rest := by
  rw [decodeFrom, advance]
  cases start b <;> rfl

theorem decodeFrom_pending_cons {p : Pending} {b : UInt8} (h : p.next b ≠ .invalid)
    (rest : List UInt8) : decodeFrom (some p) (b :: rest) = (p.next b).follow rest := by
  rw [decodeFrom, Pending.advance]
  cases hNext : p.next b with
  | complete c => rfl
  | pending q => rfl
  | invalid => exact absurd hNext h

/-- A byte that does not go on with a character is read again. -/
theorem decodeFrom_pending_invalid {p : Pending} {b : UInt8} (h : p.next b = .invalid)
    (rest : List UInt8) :
    decodeFrom (some p) (b :: rest) = replacement :: decodeFrom none (b :: rest) := by
  rw [decodeFrom, decodeFrom, Pending.advance, h]
  rfl

/-- As long as some bytes lead anywhere, what comes after them is read from there, by induction
from the last one back. -/
theorem decodeFrom_append {bytes : List UInt8} {step : Step} (hSome : bytes ≠ [])
    (hRead : read bytes = step) (hGoes : step ≠ .invalid) (rest : List UInt8) :
    decodeFrom none (bytes ++ rest) = step.follow rest := by
  subst hRead
  induction bytes using reverseRecOn generalizing rest with
  | nil => exact absurd rfl hSome
  | append_singleton bytes b ih =>
    rcases eq_or_ne bytes [] with rfl | hInit
    · exact decodeFrom_cons b rest
    have hLast := read_append hInit [b]
    rw [hLast] at hGoes ⊢
    rw [append_assoc]
    cases hBefore : read bytes with
    | pending p =>
      rw [hBefore] at hGoes ih
      rw [ih hInit _ nofun]
      exact decodeFrom_pending_cons hGoes rest
    | complete _ | invalid =>
      rw [hBefore] at hGoes
      exact absurd rfl hGoes

/-- A character is read from its bytes. -/
theorem decodeFrom_char (c : Char) (rest : List UInt8) :
    decodeFrom none (utf8EncodeChar c ++ rest) = c :: decodeFrom none rest :=
  decodeFrom_append String.utf8EncodeChar_ne_nil (read_eq_complete_iff.mpr rfl) nofun rest

namespace Subpart

variable {bytes rest : List UInt8}

/-- No character is read from the start of a part on. -/
theorem read_ne_complete (h : Subpart bytes rest) {start : List UInt8}
    (hStart : start <+: bytes ++ rest) (c : Char) : read start ≠ .complete c := by
  intro hRead
  rw [read_eq_complete_iff] at hRead
  exact h.no_char c (hRead ▸ hStart)

/-- The byte after a part does not go on with the character that the part begins. -/
theorem next_eq_invalid {b : UInt8} {p : Pending} (h : Subpart bytes (b :: rest))
    (hRead : read bytes = .pending p) : p.next b = .invalid := by
  have hPrefix : bytes ++ [b] <+: bytes ++ b :: rest := ⟨rest, by simp⟩
  have hNext : read (bytes ++ [b]) = p.next b := by
    rw [read_append h.ne_nil, hRead]
    rfl
  rw [← hNext]
  cases hStep : read (bytes ++ [b]) with
  | complete c => exact absurd hStep (h.read_ne_complete hPrefix c)
  | pending q =>
    have hLonger := h.longest _ hPrefix
      ((exists_read_eq_pending_iff (concat_ne_nil b bytes)).mp ⟨q, hStep⟩)
    have hLength := hLonger.length_le
    rw [length_append] at hLength
    exact absurd hLength (Nat.not_succ_le_self _)
  | invalid => rfl

/-- One U+FFFD is read from a part. -/
theorem decodeFrom_eq (h : Subpart bytes rest) :
    decodeFrom none (bytes ++ rest) = replacement :: decodeFrom none rest := by
  cases hRead : read bytes with
  | complete c => exact absurd hRead (h.read_ne_complete (prefix_append _ _) c)
  | pending p =>
    rw [decodeFrom_append h.ne_nil hRead nofun]
    cases rest with
    | nil => rfl
    | cons b rest => exact decodeFrom_pending_invalid (h.next_eq_invalid hRead) rest
  | invalid =>
    have hNone : ¬Unfinished bytes := by
      rw [← exists_read_eq_pending_iff h.ne_nil, hRead]
      exact fun ⟨_, hPending⟩ => nomatch hPending
    obtain ⟨b, rfl⟩ := length_eq_one_iff.mp (h.begins.resolve_left hNone)
    have hStart : start b = .invalid := hRead
    rw [singleton_append, decodeFrom_cons, hStart]
    rfl

end Subpart

/-- Every character can still come. -/
theorem unfinished_nil : Unfinished [] :=
  ⟨utf8EncodeChar 'a', 'a', String.utf8EncodeChar_ne_nil, rfl⟩

open Classical in
/-- Where no character begins, a part does: the longest unfinished one, or one byte. -/
theorem exists_subpart {bytes : List UInt8} (hSome : bytes ≠ [])
    (hNone : ∀ c, ¬utf8EncodeChar c <+: bytes) :
    ∃ part rest, part ++ rest = bytes ∧ Subpart part rest := by
  let n := Nat.findGreatest (fun n => Unfinished (bytes.take n)) bytes.length
  have hLongest : ∀ start, start <+: bytes → Unfinished start → start.length ≤ n := by
    intro start hStart hUnfinished
    rw [prefix_iff_eq_take.mp hStart] at hUnfinished
    exact Nat.le_findGreatest hStart.length_le hUnfinished
  have hBegins : Unfinished (bytes.take n) :=
    Nat.findGreatest_spec (P := fun n => Unfinished (bytes.take n)) (Nat.zero_le _) unfinished_nil
  have hPos : 0 < bytes.length := length_pos_iff.mpr hSome
  refine ⟨bytes.take (max 1 n), bytes.drop (max 1 n), take_append_drop _ _, ?_, ?_, ?_, ?_⟩
  · rw [← length_pos_iff, length_take]
    omega
  · rwa [take_append_drop]
  · rcases Nat.le_total n 1 with hLe | hLe
    · right
      rw [Nat.max_eq_left hLe, length_take]
      omega
    · left
      rwa [Nat.max_eq_right hLe]
  · rw [take_append_drop]
    intro start hStart hUnfinished
    refine prefix_of_prefix_length_le hStart ⟨_, take_append_drop _ _⟩ ?_
    have hLength := hLongest start hStart hUnfinished
    have hBound := hStart.length_le
    rw [length_take]
    omega

/-- Every list of bytes is divided in the way in which it is read, by induction on its
length. -/
theorem decodes_decodeFrom (bytes : List UInt8) : Decodes bytes (decodeFrom none bytes) := by
  induction hLength : bytes.length using Nat.strongRecOn generalizing bytes with
  | ind n ih =>
    subst hLength
    rcases eq_or_ne bytes [] with rfl | hSome
    · exact .nil
    by_cases hChar : ∃ c, utf8EncodeChar c <+: bytes
    · obtain ⟨c, rest, rfl⟩ := hChar
      rw [decodeFrom_char]
      refine .char c (ih _ ?_ rest rfl)
      rw [length_append]
      exact Nat.lt_add_of_pos_left (length_pos_iff.mpr String.utf8EncodeChar_ne_nil)
    · obtain ⟨part, rest, rfl, hPart⟩ := exists_subpart hSome (not_exists.mp hChar)
      rw [hPart.decodeFrom_eq]
      refine .part hPart (ih _ ?_ rest rfl)
      rw [length_append]
      exact Nat.lt_add_of_pos_left (length_pos_iff.mpr hPart.ne_nil)

/-- The characters that are read from some bytes are those of the parts of them. -/
theorem decodeFrom_eq_iff {bytes : List UInt8} {chars : List Char} :
    decodeFrom none bytes = chars ↔ Decodes bytes chars := by
  constructor
  · rintro rfl
    exact decodes_decodeFrom bytes
  · intro h
    induction h with
    | nil => rfl
    | char c h ih => rw [decodeFrom_char, ih]
    | part hPart h ih => rw [hPart.decodeFrom_eq, ih]

theorem text_eq_iff {bytes : List UInt8} {s : String} :
    text bytes = s ↔ Decodes bytes s.toList := by
  rw [← decodeFrom_eq_iff, text]
  exact ⟨fun h => h ▸ String.toList_ofList.symm, fun h => h ▸ String.ofList_toList⟩

/-- A character of four bytes that ends after the second one, a surrogate, an overlong form and
a byte that is missing. -/
example : text [0x61, 0xF0, 0x9F, 0x61, 0xED, 0xA0, 0x80, 0xC0, 0xAF, 0xE4, 0xB8] =
    "a\uFFFDa\uFFFD\uFFFD\uFFFD\uFFFD\uFFFD\uFFFD" := by
  decide

/-! ## The bytes of a text -/

/-- The bytes of a text. -/
def encode (s : String) : List UInt8 :=
  s.toByteArray.data.toList

theorem encode_ofList (chars : List Char) :
    encode (String.ofList chars) = chars.flatMap utf8EncodeChar := by
  rw [encode, String.toByteArray_ofList, List.utf8Encode, toList_data_toByteArray]

theorem decodeFrom_flatMap (chars : List Char) :
    decodeFrom none (chars.flatMap utf8EncodeChar) = chars := by
  rw [decodeFrom_eq_iff]
  induction chars with
  | nil => exact .nil
  | cons c chars ih => exact .char c ih

/-- A text is read from its bytes. -/
theorem text_encode (s : String) : text (encode s) = s := by
  rw [← String.ofList_toList (s := s), encode_ofList, text, decodeFrom_flatMap]

/-- The bytes from which a text is read are the bytes of it where they are those of any. -/
theorem encode_text_iff {bytes : List UInt8} :
    encode (text bytes) = bytes ↔ ByteArray.IsValidUTF8 ⟨bytes.toArray⟩ := by
  constructor
  · intro h
    have hValid := (text bytes).isValidUTF8
    rwa [← h]
  · rintro ⟨chars, hChars⟩
    have hBytes : bytes = encode (String.ofList chars) := by
      rw [encode, String.toByteArray_ofList, ← hChars]
    rw [hBytes, text_encode]

end Utf8

/-! ## Cursors over the bytes of a text -/

/-- The bytes of a text as a source, in a buffer of their own. -/
def bytesSource (source : Source String) (buffer : Nat) : Source (Array UInt8) :=
  ⟨buffer, source.content.toByteArray.data⟩

/-- A cursor over a text and one over the bytes of it, at one position. -/
structure Abreast (source : Source String) (buffer : Nat) (c : TextCursor)
    (d : SliceCursor UInt8) : Prop where
  text : Reached (TextCursor.ofSource source) c
  bytes : Reached (SliceCursor.ofSource (bytesSource source buffer)) d
  position_eq : position d = position c

/-- Where a text and its bytes are divided after the same number of bytes, the bytes are
divided between two characters. -/
theorem eq_flatMap_of_append {s t : List Char} {front back : List UInt8}
    (hEq : front ++ back = (s ++ t).flatMap utf8EncodeChar)
    (hLength : front.length = (s.flatMap utf8EncodeChar).length) :
    front = s.flatMap utf8EncodeChar ∧ back = t.flatMap utf8EncodeChar := by
  rw [flatMap_append] at hEq
  exact append_inj hEq hLength

theorem length_flatMap_utf8EncodeChar (chars : List Char) :
    (chars.flatMap utf8EncodeChar).length = widthOf TextCursor chars := by
  induction chars with
  | nil => rfl
  | cons c chars ih =>
    rw [flatMap_cons, length_append, widthOf_cons, ih, String.length_utf8EncodeChar]
    rfl

namespace Abreast

variable {source : Source String} {buffer : Nat} {c c' : TextCursor} {d d' : SliceCursor UInt8}

/-- The bytes on both sides are those of the characters there. -/
theorem view_eq (h : Abreast source buffer c d) :
    before d = (before c).flatMap utf8EncodeChar ∧ after d = (after c).flatMap utf8EncodeChar := by
  have hText : before c ++ after c = source.content.toList := by
    rw [(Reached.start.sameSource h.text).content_eq, TextCursor.before_ofSource,
      TextCursor.after_ofSource, nil_append]
  have hBytes : before d ++ after d = Utf8.encode source.content := by
    rw [(Reached.start.sameSource h.bytes).content_eq, SliceCursor.before_append_after]
    rfl
  apply eq_flatMap_of_append
  · rw [hBytes, hText, ← Utf8.encode_ofList, String.ofList_toList]
  · rw [length_flatMap_utf8EncodeChar, ← LawfulInput.position_eq, ← h.position_eq,
      LawfulInput.position_eq, SliceCursor.widthOf_eq]

theorem rest_eq (h : Abreast source buffer c d) : Token.text (rest d) = rest c := by
  rw [LawfulInput.rest_eq, LawfulInput.rest_eq]
  have hAfter := h.view_eq.2
  exact congrArg String.ofList ((congrArg _ hAfter).trans (Utf8.decodeFrom_flatMap _))

theorem sliceTo_eq (h : Abreast source buffer c d) (h' : Abreast source buffer c' d') :
    Token.text (sliceTo d d') = sliceTo c c' := by
  rcases Nat.le_total (position c) (position c') with hLe | hLe
  · obtain ⟨chars, hChars⟩ := (h.text.sameSource h'.text).reads hLe
    obtain ⟨bytes, hBytes⟩ := (h.bytes.sameSource h'.bytes).reads
      (by rwa [h.position_eq, h'.position_eq])
    have hEq : bytes = chars.flatMap utf8EncodeChar := by
      have hAfter := h.view_eq.2
      rw [hBytes.after_eq, hChars.after_eq, flatMap_append, h'.view_eq.2] at hAfter
      exact append_cancel_right hAfter
    rw [LawfulInput.sliceTo_eq hChars, LawfulInput.sliceTo_eq hBytes, hEq]
    exact congrArg String.ofList (Utf8.decodeFrom_flatMap chars)
  · obtain ⟨chars, hChars⟩ := (h'.text.sameSource h.text).reads hLe
    obtain ⟨bytes, hBytes⟩ := (h'.bytes.sameSource h.bytes).reads
      (by rwa [h.position_eq, h'.position_eq])
    rw [LawfulInput.sliceTo_behind hChars, LawfulInput.sliceTo_behind hBytes]
    rfl

end Abreast

/-- For every cursor over a text, the cursor over its bytes can be advanced to its
position. -/
theorem exists_abreast {source : Source String} {c : TextCursor}
    (h : Reached (TextCursor.ofSource source) c) (buffer : Nat) :
    ∃ slice d, splitAt (position c) (SliceCursor.ofSource (bytesSource source buffer)) =
      some (slice, d) ∧ Abreast source buffer c d := by
  have hCount : position c ≤
      (after (SliceCursor.ofSource (bytesSource source buffer))).length := by
    have hSize := position_le_size c
    rw [(Reached.start.sameSource h).source_eq] at hSize
    rw [SliceCursor.after_eq]
    exact hSize
  obtain ⟨d, hSplit, hReads⟩ := LawfulInput.splitAt_eq_some hCount
  refine ⟨_, d, hSplit, h, .splitAt .start hSplit, ?_⟩
  rw [hReads.position_eq, SliceCursor.widthOf_eq, length_take_of_le hCount]
  exact Nat.zero_add _

/-! ## The laws -/

/-- The texts of bytes, and of the cursors over the bytes of a text. -/
structure LossyTextLaws : Prop where
  text_eq_iff : ∀ (bytes : List UInt8) s, Token.text bytes = s ↔ Utf8.Decodes bytes s.toList
  text_encode : ∀ s, Token.text (Utf8.encode s) = s
  encode_text_iff : ∀ bytes : List UInt8, Utf8.encode (Token.text bytes) = bytes ↔
    ByteArray.IsValidUTF8 ⟨bytes.toArray⟩
  text_again : ∀ bytes : List UInt8,
    Token.text (Utf8.encode (Token.text bytes)) = Token.text bytes
  exists_abreast : ∀ source buffer c, Reached (TextCursor.ofSource source) c →
    ∃ slice d, splitAt (position c) (SliceCursor.ofSource (bytesSource source buffer)) =
      some (slice, d) ∧ Abreast source buffer c d
  rest_eq : ∀ source buffer c d, Abreast source buffer c d → Token.text (rest d) = rest c
  sliceTo_eq : ∀ source buffer c d c' d', Abreast source buffer c d →
    Abreast source buffer c' d' → Token.text (sliceTo d d') = sliceTo c c'

/-- The text of bytes is lossless on the encodings of texts and only there, and cursors over
the bytes of a text give the same texts as those over the text. -/
theorem lossyTextLaws : LossyTextLaws where
  text_eq_iff _ _ := Utf8.text_eq_iff
  text_encode := Utf8.text_encode
  encode_text_iff _ := Utf8.encode_text_iff
  text_again bytes := Utf8.text_encode (Utf8.text bytes)
  exists_abreast _ buffer _ h := Packrat.exists_abreast h buffer
  rest_eq _ _ _ _ h := h.rest_eq
  sliceTo_eq _ _ _ _ _ _ h h' := h.sliceTo_eq h'

/-- The position after a character of two bytes and one of a single byte. -/
theorem lossyTextLaws_of_wide : ∃ slice d,
    splitAt 3 (SliceCursor.ofSource (bytesSource ⟨0, "é\n中"⟩ 1)) = some (slice, d) ∧
      Token.text (rest d) = "中" ∧
      Token.text (sliceTo (SliceCursor.ofSource (bytesSource ⟨0, "é\n中"⟩ 1)) d) = "é\n" := by
  obtain ⟨slice, c, hSplit, hPosition, hRest, hSlice⟩ : ∃ slice c,
      splitAt 2 (TextCursor.ofSource ⟨0, "é\n中"⟩) = some (slice, c) ∧ position c = 3 ∧
        rest c = "中" ∧ sliceTo (TextCursor.ofSource ⟨0, "é\n中"⟩) c = "é\n" :=
    ⟨_, _, rfl, rfl, rfl, rfl⟩
  obtain ⟨slice, d, hBytes, hAbreast⟩ :=
    lossyTextLaws.exists_abreast _ 1 c (.splitAt .start hSplit)
  have hRestEq := lossyTextLaws.rest_eq _ _ _ _ hAbreast
  have hSliceEq := lossyTextLaws.sliceTo_eq _ _ _ _ _ _ ⟨.start, .start, rfl⟩ hAbreast
  rw [hPosition] at hBytes
  exact ⟨slice, d, hBytes, hRestEq.trans hRest, hSliceEq.trans hSlice⟩

end Packrat

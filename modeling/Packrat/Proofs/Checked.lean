import Packrat.Input.Slice.Lemmas
import Packrat.Input.Text.Lemmas

/-!
# Cursors made of words

A cursor as a machine keeps it: a source with an offset, and nothing that says the offset
is a good one. The operations compute with words, so a sum may not fit, an index or a
slice may reach out of the source, and a slice of a text may start or end inside a
character. Every step is checked, and an operation with an impossible step is a fault.

The cursors of a text and of an array are carried over to words, and there all operations
give the same answers: no step of them is impossible.

* `Fault`, `Checked`: impossible steps, and answers unless there is one;
* `WordInput`: the operations on cursors made of words;
* `WordText`, `WordSlice`: such cursors over a text and over an array;
* `SameOnWords`, `Carries`: what it is for a cursor to be carried over faithfully;
* `TextCursor.carries`, `SliceCursor.carries`: the cursors of both kinds are.
-/

namespace Packrat

open Input

/-- What makes a step impossible. -/
inductive Fault where
  /-- A sum or a difference is not a word. -/
  | overflow
  /-- An index or a slice reaches out of the source. -/
  | outOfBounds
  /-- A slice of a text starts or ends inside a character. -/
  | insideCharacter
  deriving DecidableEq, Repr

/-- An answer, unless a step on the way to it is impossible. -/
abbrev Checked := Except Fault

variable {C R τ σ α β : Type}

namespace Checked

@[simp]
theorem ok_bind (a : α) (f : α → Checked β) : (Except.ok a >>= f : Checked β) = f a := rfl

/-! ## Steps -/

/-- A sum of words, if it is a word. -/
def add? (limit m n : Nat) : Option Nat :=
  if m + n ≤ limit then some (m + n) else none

def add (limit m n : Nat) : Checked Nat :=
  (add? limit m n).elim (.error .overflow) .ok

def sub (m n : Nat) : Checked Nat :=
  if n ≤ m then .ok (m - n) else .error .overflow

def get (data : Array τ) (i : Nat) : Checked τ :=
  data[i]?.elim (.error .outOfBounds) .ok

/-- The tokens between two indices. -/
def slice (data : Array τ) (i j : Nat) : Checked (List τ) :=
  if i ≤ j ∧ j ≤ data.size then .ok (data.extract i j).toList else .error .outOfBounds

/-- The text between two offsets. -/
def textSlice (s : String) (i j : Nat) : Checked String :=
  if i ≤ j ∧ j ≤ s.utf8ByteSize then
    if h : (String.Pos.Raw.mk i).IsValid s ∧ (String.Pos.Raw.mk j).IsValid s then
      .ok (s.extract ⟨⟨i⟩, h.1⟩ ⟨⟨j⟩, h.2⟩)
    else .error .insideCharacter
  else .error .outOfBounds

theorem add_eq {limit m n : Nat} (h : m + n ≤ limit) : add limit m n = .ok (m + n) := by
  unfold add add?
  rw [if_pos h]
  rfl

theorem sub_eq {m n : Nat} (h : n ≤ m) : sub m n = .ok (m - n) :=
  if_pos h

theorem get_eq {data : Array τ} {i : Nat} (h : i < data.size) : get data i = .ok data[i] := by
  unfold get
  rw [Array.getElem?_eq_getElem h]
  rfl

theorem slice_eq {data : Array τ} {i j : Nat} (hStart : i ≤ j) (hStop : j ≤ data.size) :
    slice data i j = .ok (data.extract i j).toList :=
  if_pos ⟨hStart, hStop⟩

/-- The text between two cursors, one of which is reached from the other one. -/
theorem textSlice_of_reads {c d : TextCursor} {tokens : List Char} (h : Reads c tokens d) :
    textSlice c.source.content (position c) (position d) = .ok (String.ofList tokens) := by
  have hSlice : Input.sliceTo c d = String.ofList tokens := LawfulInput.sliceTo_eq h
  have hLe := h.position_le
  obtain ⟨pos, rfl⟩ := TextCursor.exists_pos_of_reads h
  have hBound : pos.offset.byteIdx ≤ c.source.content.utf8ByteSize := pos.isValid.le_utf8ByteSize
  unfold textSlice
  rw [if_pos ⟨hLe, hBound⟩, dif_pos ⟨c.pos.isValid, pos.isValid⟩, ← hSlice]
  exact congrArg _ (TextCursor.sliceTo_withPos c pos).symm

/-- The second of three parts of a text. -/
theorem textSlice_eq (s t u : List Char) :
    textSlice (String.ofList (s ++ t ++ u)) (widthOf TextCursor s) (widthOf TextCursor (s ++ t)) =
      .ok (String.ofList t) := by
  let start := TextCursor.ofSource ⟨0, String.ofList (s ++ t ++ u)⟩
  have hStart : after start = s ++ (t ++ u) := by simp [start]
  have hLength : s.length ≤ (after start).length := by simp [hStart]
  obtain ⟨c, -, hFirst⟩ := LawfulInput.splitAt_eq_some hLength
  rw [hStart, List.take_left] at hFirst
  have hAfter : after c = t ++ u := List.append_cancel_left (hFirst.after_eq.symm.trans hStart)
  obtain ⟨d, -, hSecond⟩ := LawfulInput.splitAt_eq_some (c := c) (n := t.length) (by simp [hAfter])
  rw [hAfter, List.take_left] at hSecond
  have hBegin : position start = 0 := by simp [LawfulInput.position_eq, start]
  have hContent : c.source.content = String.ofList (s ++ t ++ u) := by
    obtain ⟨pos, rfl⟩ := TextCursor.exists_pos_of_reads hFirst
    rfl
  have hText := textSlice_of_reads hSecond
  rwa [hContent, hSecond.position_eq, hFirst.position_eq, hBegin, Nat.zero_add,
    ← widthOf_append] at hText

/-! ## Offsets of tokens -/

/-- Some tokens, each with the offset at which it starts. -/
def offsets (width : τ → Nat) : Nat → List τ → List (Nat × τ)
  | _, [] => []
  | i, token :: tokens => (i, token) :: offsets width (i + width token) tokens

/-- The offset of the last token that passes a test. -/
def lastOffset? (width : τ → Nat) (test : τ → Bool) (tokens : List τ) : Option Nat :=
  ((offsets width 0 tokens).reverse.find? fun x => test x.2).map Prod.fst

/-- The offset after the last newline among some tokens, or else zero. -/
def lineStart [Token τ] (limit : Nat) (width : τ → Nat) (tokens : List τ) : Checked Nat :=
  match lastOffset? width Token.isNewline tokens with
  | some i => add limit i 1
  | none => return 0

section

variable [InputView C τ σ]

theorem offsets_append (s t : List τ) : ∀ i, offsets (InputView.width C) i (s ++ t) =
    offsets (InputView.width C) i s ++ offsets (InputView.width C) (i + widthOf C s) t := by
  induction s with
  | nil => exact fun i => rfl
  | cons token s ih =>
    intro i
    rw [List.cons_append, offsets, ih, widthOf_cons, ← Nat.add_assoc]
    rfl

theorem mem_of_mem_offsets {x : Nat × τ} {tokens : List τ} : ∀ {i},
    x ∈ offsets (InputView.width C) i tokens → x.2 ∈ tokens := by
  induction tokens with
  | nil =>
    intro i h
    cases h
  | cons token tokens ih =>
    intro i h
    cases h with
    | head => exact .head _
    | tail _ h => exact .tail _ (ih h)

/-- The offset of the token with a number, or the end after the last one. -/
theorem getElem?_offsets (tokens : List τ) : ∀ i n,
    ((offsets (InputView.width C) i tokens).map Prod.fst ++ [i + widthOf C tokens])[n]? =
      if n ≤ tokens.length then some (i + widthOf C (tokens.take n)) else none := by
  induction tokens with
  | nil =>
    intro i n
    cases n <;> simp [offsets]
  | cons token tokens ih =>
    intro i n
    cases n with
    | zero => simp [offsets]
    | succ n => simpa [offsets, Nat.add_assoc] using ih (i + InputView.width C token) n

theorem lastOffset?_append {test : τ → Bool} {s t : List τ} {token : τ} (hToken : test token)
    (hNone : ∀ x ∈ t, ¬test x) :
    lastOffset? (InputView.width C) test (s ++ token :: t) = some (widthOf C s) := by
  have hTail : (offsets (InputView.width C) (0 + widthOf C s + InputView.width C token)
      t).reverse.find? (fun x => test x.2) = none := by
    refine List.find?_eq_none.mpr fun x hMem => ?_
    exact hNone x.2 (mem_of_mem_offsets (List.mem_reverse.mp hMem))
  unfold lastOffset?
  rw [offsets_append, offsets, List.reverse_append, List.reverse_cons, List.find?_append,
    List.find?_append, hTail]
  simp [hToken]

theorem lastOffset?_eq_none {test : τ → Bool} {tokens : List τ} (hNone : ∀ x ∈ tokens, ¬test x) :
    lastOffset? (InputView.width C) test tokens = none := by
  unfold lastOffset?
  rw [Option.map_eq_none_iff, List.find?_eq_none]
  exact fun x hMem => hNone x.2 (mem_of_mem_offsets (List.mem_reverse.mp hMem))

omit [InputView C τ σ] in
/-- Some tokens up to the last one that passes a test, and those after it. -/
theorem exists_last (test : τ → Bool) (tokens : List τ) :
    (∃ s token t, tokens = s ++ token :: t ∧ test token ∧ (∀ x ∈ t, ¬test x) ∧
        t.length = (tokens.reverse.takeWhile fun x => !test x).length) ∨
      (∀ x ∈ tokens, ¬test x) ∧
        tokens.length = (tokens.reverse.takeWhile fun x => !test x).length := by
  have hSplit := tokens.reverse.takeWhile_append_dropWhile (p := fun x => !test x)
  have hNone : ∀ x ∈ tokens.reverse.takeWhile fun x => !test x, ¬test x := by
    intro x hMem
    simpa using List.all_eq_true.mp List.all_takeWhile x hMem
  have hHead := List.head?_dropWhile_not (fun x => !test x) tokens.reverse
  generalize tokens.reverse.takeWhile (fun x => !test x) = line at hSplit hNone ⊢
  generalize tokens.reverse.dropWhile (fun x => !test x) = before at hSplit hHead
  have hTokens : tokens = before.reverse ++ line.reverse := by
    rw [← List.reverse_append, hSplit, List.reverse_reverse]
  cases before with
  | nil =>
    refine .inr ⟨fun x hMem => hNone x ?_, by rw [hTokens]; simp⟩
    simpa [hTokens] using hMem
  | cons token rest =>
    refine .inl ⟨rest.reverse, token, line.reverse, by simp [hTokens], by simpa using hHead, ?_,
      List.length_reverse⟩
    exact fun x hMem => hNone x (List.mem_reverse.mp hMem)

/-- The tokens after the last newline are those that the column counts. -/
theorem exists_lineStart [Token τ] {limit : Nat} {tokens : List τ}
    (hNewline : ∀ token : τ, Token.isNewline token → InputView.width C token = 1)
    (hLimit : widthOf C tokens ≤ limit) : ∃ s t, tokens = s ++ t ∧
      lineStart limit (InputView.width C) tokens = .ok (widthOf C s) ∧
      (Location.after Token.isNewline tokens).column = t.length := by
  unfold lineStart Location.after
  rcases exists_last Token.isNewline tokens with
    ⟨s, token, t, rfl, hToken, hNone, hLength⟩ | ⟨hNone, hLength⟩
  · have hWidth : widthOf C (s ++ [token]) = widthOf C s + 1 := by
      rw [widthOf_append, widthOf_cons, hNewline token hToken, widthOf_nil]
    have hFits : widthOf C s + 1 ≤ limit := by
      rw [List.append_cons, widthOf_append, hWidth] at hLimit
      exact Nat.le_trans (Nat.le_add_right _ _) hLimit
    refine ⟨s ++ [token], t, List.append_cons s token t, ?_, hLength.symm⟩
    rw [lastOffset?_append hToken hNone, hWidth]
    exact add_eq hFits
  · refine ⟨[], tokens, rfl, ?_, hLength.symm⟩
    rw [lastOffset?_eq_none hNone]
    rfl

/-- No more newlines are counted than there are units. -/
theorem add_countP_newline [Input C τ σ] [Token τ] [LawfulInput C] {limit : Nat} {tokens : List τ}
    (hLimit : widthOf C tokens < limit) : add limit 1 (tokens.countP Token.isNewline) =
      .ok (Location.after Token.isNewline tokens).line := by
  have hCount : tokens.countP Token.isNewline ≤ tokens.length := List.countP_le_length
  have hLength := length_le_widthOf (C := C) tokens
  exact add_eq (by omega)

end

end Checked

/-! ## Operations -/

/-- The operations on cursors of type `R` that are made of words, where no word is above
the limit. -/
class WordInput (R : Type) (τ σ : outParam Type) where
  /-- The offset is one at which a cursor can stand. -/
  WellPlaced : R → Prop
  position : R → Nat
  isEmpty : R → Bool
  uncons (limit : Nat) : R → Checked (Option (τ × R))
  splitAt (limit n : Nat) : R → Checked (Option (σ × R))
  sliceTo : R → R → Checked σ
  rest : R → Checked σ
  count : R → Checked Nat
  location (limit : Nat) : R → Checked Location

/-- The operations on a cursor give the same answers on words, so none of their steps is
impossible there. -/
structure SameOnWords [Input C τ σ] [WordInput R τ σ] (limit : Nat) (words : C → R) (c : C) :
    Prop where
  position : WordInput.position (words c) = Input.position c
  isEmpty : WordInput.isEmpty (words c) = Input.isEmpty c
  uncons : WordInput.uncons limit (words c) = .ok ((Input.uncons c).map (Prod.map id words))
  splitAt : ∀ n, WordInput.splitAt limit n (words c) =
    .ok ((Input.splitAt n c).map (Prod.map id words))
  rest : WordInput.rest (words c) = .ok (Input.rest c)
  count : WordInput.count (words c) = .ok (Input.count c)
  location : WordInput.location limit (words c) = .ok (Input.location c)

/-- Cursors are carried over to words faithfully, as long as the size of the source and
one more are words. -/
structure Carries [Input C τ σ] [InputView C τ σ] [WordInput R τ σ] (limit : Nat)
    (words : C → R) : Prop where
  wellPlaced : ∀ c, WordInput.WellPlaced (words c)
  same : ∀ c, (source c).size < limit → SameOnWords limit words c
  sliceTo : ∀ {c d tokens}, Reads c tokens d →
    WordInput.sliceTo (words c) (words d) = .ok (Input.sliceTo c d)
  sliceTo_behind : ∀ {c d tokens}, Reads d tokens c →
    WordInput.sliceTo (words c) (words d) = .ok (Input.sliceTo c d)

/-! ## Texts -/

/-- A text with the offset of a byte in it. -/
structure WordText where
  text : String
  position : Nat

namespace WordText

open Checked

def new (text : String) : WordText :=
  ⟨text, 0⟩

def rest (c : WordText) : Checked String :=
  textSlice c.text c.position c.text.utf8ByteSize

def advanced (limit : Nat) (c : WordText) (bytes : Nat) : Checked WordText := do
  return { c with position := ← add limit c.position bytes }

def uncons (limit : Nat) (c : WordText) : Checked (Option (Char × WordText)) := do
  match (← c.rest).toList.head? with
  | some token => return some (token, ← c.advanced limit token.utf8Size)
  | none => return none

/-- The offset at which the slice ends is looked for among those of the characters, and
of the end. -/
def splitAt (limit n : Nat) (c : WordText) : Checked (Option (String × WordText)) := do
  let rest ← c.rest
  match ((offsets Char.utf8Size 0 rest.toList).map Prod.fst ++ [rest.utf8ByteSize])[n]? with
  | some stop => return some (← textSlice rest 0 stop, ← c.advanced limit stop)
  | none => return none

def sliceTo (c d : WordText) : Checked String :=
  textSlice c.text c.position (max d.position c.position)

def location (limit : Nat) (c : WordText) : Checked Location := do
  let consumed ← textSlice c.text 0 c.position
  let start ← lineStart limit Char.utf8Size consumed.toList
  let line ← add limit 1 (consumed.toList.countP Token.isNewline)
  return ⟨line, (← textSlice consumed start consumed.utf8ByteSize).length⟩

instance : WordInput WordText Char String where
  WellPlaced c := c.position ≤ c.text.utf8ByteSize ∧ (String.Pos.Raw.mk c.position).IsValid c.text
  position := WordText.position
  isEmpty c := c.text.utf8ByteSize ≤ c.position
  uncons := uncons
  splitAt := splitAt
  sliceTo := sliceTo
  rest := rest
  count c := do return (← c.rest).length
  location := location

end WordText

namespace TextCursor

open Checked

/-- The cursor as a text with an offset. -/
def words (c : TextCursor) : WordText :=
  ⟨c.source.content, position c⟩

@[simp]
theorem text_words (c : TextCursor) : (words c).text = c.source.content := rfl

@[simp]
theorem position_words (c : TextCursor) : (words c).position = position c := rfl

theorem words_eq_of_reads {c d : TextCursor} {tokens : List Char} (h : Reads c tokens d) :
    words d = { words c with position := position c + widthOf TextCursor tokens } := by
  have hPosition := h.position_eq
  obtain ⟨pos, rfl⟩ := exists_pos_of_reads h
  unfold words
  rw [hPosition]

theorem content_eq (c : TextCursor) :
    c.source.content = String.ofList (InputView.before c ++ InputView.after c) :=
  (before_append_after c).symm

theorem utf8ByteSize_eq (c : TextCursor) :
    c.source.content.utf8ByteSize =
      widthOf TextCursor (InputView.before c ++ InputView.after c) := by
  rw [content_eq, widthOf_eq]

theorem rest_words (c : TextCursor) : (words c).rest = .ok (String.ofList (InputView.after c)) := by
  have hText := textSlice_eq (InputView.before c) (InputView.after c) []
  rw [List.append_nil, ← content_eq, ← utf8ByteSize_eq, ← LawfulInput.position_eq] at hText
  exact hText

theorem count_words (c : TextCursor) : WordInput.count (words c) = .ok (Input.count c) := by
  have hRest : WordInput.count (words c) = (words c).rest >>= fun s => .ok s.length := rfl
  rw [hRest, rest_words, ok_bind, String.length_ofList, LawfulInput.count_eq]

theorem advanced_words {limit : Nat} {c d : TextCursor} {tokens : List Char}
    (hSize : (Input.source c).size < limit) (h : Reads c tokens d) :
    (words c).advanced limit (widthOf TextCursor tokens) = .ok (words d) := by
  have hFits : position c + widthOf TextCursor tokens ≤ limit := by
    have hWhole := LawfulInput.size_eq c
    rw [h.after_eq, widthOf_append, widthOf_append, ← LawfulInput.position_eq] at hWhole
    omega
  unfold WordText.advanced
  rw [words_eq_of_reads h, position_words, add_eq hFits]
  rfl

theorem uncons_words {limit : Nat} {c : TextCursor} (hSize : (Input.source c).size < limit) :
    (words c).uncons limit = .ok ((Input.uncons c).map (Prod.map id words)) := by
  unfold WordText.uncons
  rw [rest_words, ok_bind, String.toList_ofList]
  cases hAfter : InputView.after c with
  | nil =>
    rw [LawfulInput.uncons_eq_none hAfter]
    rfl
  | cons token tokens =>
    obtain ⟨d, hUncons, hReads⟩ := LawfulInput.uncons_eq_some hAfter
    have hAdvanced := advanced_words hSize hReads
    rw [widthOf_cons, widthOf_nil, Nat.add_zero] at hAdvanced
    rw [hUncons, List.head?_cons]
    dsimp only
    rw [show token.utf8Size = InputView.width TextCursor token from rfl, hAdvanced]
    rfl

theorem splitAt_words {limit : Nat} {c : TextCursor} (hSize : (Input.source c).size < limit)
    (n : Nat) : (words c).splitAt limit n = .ok ((Input.splitAt n c).map (Prod.map id words)) := by
  have hOffset := getElem?_offsets (C := TextCursor) (InputView.after c) 0 n
  unfold WordText.splitAt
  rw [rest_words, ok_bind, String.toList_ofList, ← widthOf_eq]
  rw [Nat.zero_add, Nat.zero_add] at hOffset
  rw [show (Char.utf8Size : Char → Nat) = InputView.width TextCursor from rfl, hOffset]
  by_cases hLe : n ≤ (InputView.after c).length
  · obtain ⟨d, hSplit, hReads⟩ := LawfulInput.splitAt_eq_some hLe
    have hText := textSlice_eq [] ((InputView.after c).take n) ((InputView.after c).drop n)
    rw [List.nil_append, List.take_append_drop, widthOf_nil] at hText
    rw [hSplit, if_pos hLe]
    dsimp only
    rw [hText, ok_bind, advanced_words hSize hReads]
    rfl
  · rw [LawfulInput.splitAt_eq_none (Nat.lt_of_not_le hLe), if_neg hLe]
    rfl

theorem location_words {limit : Nat} {c : TextCursor} (hSize : (Input.source c).size < limit) :
    (words c).location limit = .ok (Input.location c) := by
  have hWidth : widthOf TextCursor (InputView.before c) < limit := by
    rw [← LawfulInput.position_eq]
    exact Nat.lt_of_le_of_lt (position_le_size c) hSize
  have hConsumed := textSlice_eq [] (InputView.before c) (InputView.after c)
  rw [List.nil_append, ← content_eq, widthOf_nil, ← LawfulInput.position_eq] at hConsumed
  have hNewline : ∀ token : Char, Token.isNewline token → InputView.width TextCursor token = 1 := by
    intro token hToken
    rw [eq_of_beq hToken]
    rfl
  obtain ⟨s, t, hSplit, hStart, hColumn⟩ :=
    exists_lineStart hNewline (Nat.le_of_lt hWidth)
  have hLine := textSlice_eq s t []
  rw [List.append_nil, ← hSplit] at hLine
  unfold WordText.location
  rw [text_words, position_words, hConsumed, ok_bind, String.toList_ofList,
    show (Char.utf8Size : Char → Nat) = InputView.width TextCursor from rfl, hStart, ok_bind,
    add_countP_newline hWidth, ok_bind, ← widthOf_eq, hLine, ok_bind, LawfulInput.location_eq,
    String.length_ofList, ← hColumn]
  rfl

theorem sliceTo_words {c d : TextCursor} {tokens : List Char} (h : Reads c tokens d) :
    (words c).sliceTo (words d) = .ok (Input.sliceTo c d) := by
  have hLe := h.position_le
  have hText := textSlice_of_reads h
  unfold WordText.sliceTo
  rw [LawfulInput.sliceTo_eq h, position_words, position_words, Nat.max_eq_left hLe]
  exact hText

theorem sliceTo_words_behind {c d : TextCursor} {tokens : List Char} (h : Reads d tokens c) :
    (words c).sliceTo (words d) = .ok (Input.sliceTo c d) := by
  have hLe := h.position_le
  have hText := textSlice_of_reads (.refl c)
  unfold WordText.sliceTo
  rw [LawfulInput.sliceTo_behind h, position_words, position_words, Nat.max_eq_right hLe]
  exact hText

theorem carries (limit : Nat) : Carries limit words where
  wellPlaced c := ⟨c.pos.isValid.le_utf8ByteSize, c.pos.isValid⟩
  same c hSize :=
    { position := rfl
      isEmpty := rfl
      uncons := uncons_words hSize
      splitAt := splitAt_words hSize
      rest := (rest_words c).trans (congrArg _ (LawfulInput.rest_eq c).symm)
      count := count_words c
      location := location_words hSize }
  sliceTo := sliceTo_words
  sliceTo_behind := sliceTo_words_behind

end TextCursor

/-! ## Arrays -/

/-- An array with an index in it, or its end. -/
inductive WordSlice (τ : Type) where
  | valid (data : Array τ) (position : Nat)
  | endOfFile (data : Array τ)

namespace WordSlice

open Checked

/-- The cursor at an index, or the end from there on. -/
def ofIndex (data : Array τ) (position : Nat) : WordSlice τ :=
  if data.size ≤ position then .endOfFile data else .valid data position

def new (data : Array τ) : WordSlice τ :=
  .ofIndex data 0

def data : WordSlice τ → Array τ
  | valid data _ => data
  | endOfFile data => data

def position : WordSlice τ → Nat
  | valid _ position => position
  | endOfFile data => data.size

def isEmpty : WordSlice τ → Bool
  | valid _ _ => false
  | endOfFile _ => true

def WellPlaced : WordSlice τ → Prop
  | valid data position => position < data.size
  | endOfFile _ => True

def uncons (limit : Nat) : WordSlice τ → Checked (Option (τ × WordSlice τ))
  | valid data position => do
    return some (← get data position, .ofIndex data (← add limit position 1))
  | endOfFile _ => return none

def splitAt (limit n : Nat) (c : WordSlice τ) : Checked (Option (List τ × WordSlice τ)) := do
  match (add? limit c.position n).filter (· ≤ c.data.size) with
  | some stop => return some (← slice c.data c.position stop, .ofIndex c.data stop)
  | none => return none

def sliceTo (c d : WordSlice τ) : Checked (List τ) :=
  slice c.data c.position (max d.position c.position)

def location [Token τ] (limit : Nat) (c : WordSlice τ) : Checked Location := do
  let consumed ← slice c.data 0 c.position
  let start ← lineStart limit (fun _ => 1) consumed
  let line ← add limit 1 (consumed.countP Token.isNewline)
  return ⟨line, ← sub consumed.length start⟩

instance [Token τ] : WordInput (WordSlice τ) τ (List τ) where
  WellPlaced := WellPlaced
  position := position
  isEmpty := isEmpty
  uncons := uncons
  splitAt := splitAt
  sliceTo := sliceTo
  rest c := slice c.data c.position c.data.size
  count c := sub c.data.size c.position
  location := location

variable {data : Array τ} {i : Nat}

theorem data_ofIndex (data : Array τ) (i : Nat) : (WordSlice.ofIndex data i).data = data := by
  unfold ofIndex
  split <;> rfl

theorem position_ofIndex (h : i ≤ data.size) : (WordSlice.ofIndex data i).position = i := by
  unfold ofIndex
  split
  · rename_i hEnd
    exact Nat.le_antisymm hEnd h
  · rfl

theorem isEmpty_ofIndex : (WordSlice.ofIndex data i).isEmpty = decide (data.size ≤ i) := by
  unfold ofIndex
  split
  · rename_i hEnd
    exact (decide_eq_true hEnd).symm
  · rename_i hEnd
    exact (decide_eq_false hEnd).symm

theorem wellPlaced_ofIndex : (WordSlice.ofIndex data i).WellPlaced := by
  unfold ofIndex
  split
  · trivial
  · rename_i hEnd
    exact Nat.lt_of_not_le hEnd

end WordSlice

namespace SliceCursor

open Checked

variable {limit : Nat}

/-- The cursor as an array with an index, or with its end. -/
def words (c : SliceCursor τ) : WordSlice τ :=
  .ofIndex c.source.content c.index

@[simp]
theorem data_words (c : SliceCursor τ) : (words c).data = c.source.content :=
  WordSlice.data_ofIndex _ _

@[simp]
theorem position_words (c : SliceCursor τ) : (words c).position = c.index :=
  WordSlice.position_ofIndex c.index_le

variable [Token τ] {c d : SliceCursor τ} {tokens : List τ}

theorem rest_words (c : SliceCursor τ) : WordInput.rest (words c) = .ok (Input.rest c) := by
  have hRest : WordInput.rest (words c) =
      slice (words c).data (words c).position (words c).data.size := rfl
  rw [hRest, data_words, position_words]
  exact slice_eq c.index_le (Nat.le_refl _)

theorem count_words (c : SliceCursor τ) : WordInput.count (words c) = .ok (Input.count c) := by
  have hCount : WordInput.count (words c) = sub (words c).data.size (words c).position := rfl
  rw [hCount, data_words, position_words]
  exact sub_eq c.index_le

theorem uncons_words (hSize : c.source.content.size < limit) :
    (words c).uncons limit = .ok ((Input.uncons c).map (Prod.map id words)) := by
  by_cases hLt : c.index < c.source.content.size
  · have hWords : words c = .valid c.source.content c.index := if_neg (Nat.not_le.mpr hLt)
    have hFits : c.index + 1 ≤ limit := Nat.le_trans hLt (Nat.le_of_lt hSize)
    simp only [hWords, WordSlice.uncons, get_eq hLt, add_eq hFits, ok_bind, Input.uncons,
      dif_pos hLt]
    rfl
  · have hWords : words c = .endOfFile c.source.content := if_pos (Nat.le_of_not_lt hLt)
    simp only [hWords, WordSlice.uncons, Input.uncons, dif_neg hLt]
    rfl

/-- A sum that is not a word is beyond the end in any case. -/
theorem splitAt_words (hSize : c.source.content.size < limit) (n : Nat) :
    (words c).splitAt limit n = .ok ((Input.splitAt n c).map (Prod.map id words)) := by
  unfold WordSlice.splitAt add?
  rw [data_words, position_words]
  by_cases hLe : c.index + n ≤ c.source.content.size
  · have hFits : c.index + n ≤ limit := Nat.le_trans hLe (Nat.le_of_lt hSize)
    have hSlice := slice_eq (Nat.le_add_right c.index n) hLe
    simp only [if_pos hFits, Option.filter_some, hLe, decide_true, if_true, hSlice, ok_bind,
      Input.splitAt]
    rfl
  · have hNone : (if c.index + n ≤ limit then some (c.index + n) else none).filter
        (· ≤ c.source.content.size) = none := by
      split
      · simpa using hLe
      · rfl
    simp only [hNone, Input.splitAt, dif_neg hLe]
    rfl

theorem location_words (hSize : c.source.content.size < limit) :
    (words c).location limit = .ok (Input.location c) := by
  have hWidth : widthOf (SliceCursor τ) (InputView.before c) < limit := by
    rw [widthOf_eq, length_before]
    exact Nat.lt_of_le_of_lt c.index_le hSize
  obtain ⟨s, t, hSplit, hStart, hColumn⟩ :=
    exists_lineStart (fun _ _ => rfl) (Nat.le_of_lt hWidth)
  have hConsumed : slice c.source.content 0 c.index = .ok (InputView.before c) :=
    slice_eq (Nat.zero_le _) c.index_le
  have hRest : sub (InputView.before c).length (widthOf (SliceCursor τ) s) = .ok t.length := by
    rw [widthOf_eq, hSplit, List.length_append, sub_eq (Nat.le_add_right _ _),
      Nat.add_sub_cancel_left]
  unfold WordSlice.location
  rw [data_words, position_words, hConsumed, ok_bind,
    show (fun _ : τ => 1) = InputView.width (SliceCursor τ) from rfl, hStart, ok_bind,
    add_countP_newline hWidth, ok_bind, hRest, LawfulInput.location_eq, ← hColumn]
  rfl

theorem sliceTo_words (h : Reads c tokens d) :
    (words c).sliceTo (words d) = .ok (Input.sliceTo c d) := by
  have hLe : c.index ≤ d.index := h.position_le
  have hSize := congrArg SourceId.size h.source_eq
  have hStop : d.index ≤ c.source.content.size := Nat.le_trans d.index_le (Nat.le_of_eq hSize)
  unfold WordSlice.sliceTo
  rw [data_words, position_words, position_words, Nat.max_eq_left hLe]
  exact slice_eq hLe hStop

theorem sliceTo_words_behind (h : Reads d tokens c) :
    (words c).sliceTo (words d) = .ok (Input.sliceTo c d) := by
  have hLe : d.index ≤ c.index := h.position_le
  have hSlice := slice_eq (Nat.le_refl c.index) c.index_le
  unfold WordSlice.sliceTo
  rw [data_words, position_words, position_words, Nat.max_eq_right hLe,
    LawfulInput.sliceTo_behind h, hSlice]
  simp [sliceOf, InputView.slice]

theorem carries (limit : Nat) : Carries limit (words (τ := τ)) where
  wellPlaced _ := WordSlice.wellPlaced_ofIndex
  same c hSize :=
    { position := position_words c
      isEmpty := WordSlice.isEmpty_ofIndex
      uncons := uncons_words hSize
      splitAt := splitAt_words hSize
      rest := rest_words c
      count := count_words c
      location := location_words hSize }
  sliceTo := sliceTo_words
  sliceTo_behind := sliceTo_words_behind

end SliceCursor

end Packrat

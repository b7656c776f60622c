import Packrat.Input.Slice.Lemmas
import Packrat.Proofs.Pairs
import Packrat.Proofs.Spelling

/-!
# Bytes and arrays of characters

Bytes are read as the characters of their codes, so an array of bytes and the array
of these characters are read in lockstep, at the same positions and with the same
records. Literals with other characters are in no array of bytes.

* `SliceCursor.latin1`: the cursor in the array of the characters of bytes;
* `latin1`: cursors in arrays of bytes, and those in the arrays of their characters;
* `Grammar.never_literal`, `Grammar.never_literalAnyCase`, `Grammar.never_char`: no
  character above 255 is read from bytes;
* `Session.Paired.bytes_chars`: the runs of paired sessions correspond.
-/

namespace Packrat

open Input List

/-! ## Characters of bytes -/

theorem toNat_toChar_byte (b : UInt8) : (Token.toChar b).toNat = b.toNat :=
  toNat_ofNat_byte b

theorem toChar_byte_injective {a b : UInt8} (h : Token.toChar a = Token.toChar b) : a = b := by
  apply UInt8.toNat_inj.mp
  rw [← toNat_toChar_byte, h, toNat_toChar_byte]

theorem toLower_eq_of_lt {c : Char} (h : 0x7F < c.toNat) : c.toLower = c := by
  unfold Char.toLower
  rw [dif_neg]
  rintro ⟨-, hLe⟩
  have hLe' : c.toNat ≤ 90 := hLe
  omega

theorem toNat_toLower_le {c : Char} (h : c.toNat ≤ 0xFF) : c.toLower.toNat ≤ 0xFF := by
  unfold Char.toLower
  split
  · rename_i hUpper
    have hLe : c.val.toNat ≤ 90 := hUpper.2
    have hShift : (32 : UInt32).toNat = 32 := rfl
    show (c.val + 32).toNat ≤ 0xFF
    rw [UInt32.toNat_add]
    omega
  · exact h

namespace Parser

variable {C τ σ α : Type} [Input C τ σ]

/-- A parser that gives no value, at whatever cursor and in whatever state. -/
def Never (p : Parser C α) : Prop :=
  ∀ c st v d s, p c st ≠ some (.ok (v, d), s)

variable [Token τ]

/-- Every character of a literal that is found is that of a token. -/
theorem exists_token_of_matchAll {same : Char → Char → Bool} {wanted : List Char} :
    ∀ {c d : C}, matchAll same wanted c = .ok d →
      ∀ x ∈ wanted, ∃ token : τ, same (Token.toChar token) x := by
  induction wanted with
  | nil =>
    intro c d _ x hMem
    cases hMem
  | cons y wanted ih =>
    intro c d hMatch x hMem
    unfold matchAll at hMatch
    rcases hUncons : uncons c with _ | ⟨token, rest⟩
    · simp [hUncons] at hMatch
    · simp only [hUncons] at hMatch
      split at hMatch
      · rename_i hSame
        rcases mem_cons.mp hMem with rfl | hMem
        · exact ⟨token, hSame⟩
        · exact ih hMatch x hMem
      · cases hMatch

end Parser

section

variable {text : String} {x : Char}

/-- A literal with a character above 255 is not found in bytes. -/
theorem Parser.matchAll_bytes_ne_ok {same : Char → Char → Bool} (hMem : x ∈ text.toList)
    (hSame : ∀ b : UInt8, same (Token.toChar b) x = false) (c d : SliceCursor UInt8) :
    Parser.matchAll same text.toList c ≠ .ok d := by
  intro hMatch
  obtain ⟨b, hFound⟩ := Parser.exists_token_of_matchAll hMatch x hMem
  rw [hSame b] at hFound
  cases hFound

theorem toChar_byte_ne (hLarge : 0xFF < x.toNat) (b : UInt8) : (Token.toChar b == x) = false := by
  rw [beq_eq_false_iff_ne]
  rintro rfl
  have hLt := b.toNat_lt
  rw [toNat_toChar_byte] at hLarge
  omega

theorem sameButCase_byte (hLarge : 0xFF < x.toNat) (b : UInt8) :
    Parser.sameButCase (Token.toChar b) x = false := by
  unfold Parser.sameButCase
  rw [beq_eq_false_iff_ne, toLower_eq_of_lt (Nat.lt_trans (by decide) hLarge)]
  intro hEq
  have hLt := b.toNat_lt
  have hLe : (Token.toChar b).toLower.toNat ≤ 0xFF := by
    apply toNat_toLower_le
    rw [toNat_toChar_byte]
    omega
  rw [hEq] at hLe
  omega

namespace Grammar

variable (call : Reference → Parser (SliceCursor UInt8) Value) (a : Address)

theorem never_literal (hMem : x ∈ text.toList) (hLarge : 0xFF < x.toNat) :
    ((literal text).parser call a).Never := by
  intro c st v d s hRun
  unfold parser Parser.map Parser.onResult Parser.literal at hRun
  rcases hMatch : Parser.matchAll (· == ·) text.toList c with ⟨wanted, found⟩ | rest
  · simp [hMatch] at hRun
  · exact Parser.matchAll_bytes_ne_ok hMem (toChar_byte_ne hLarge) c rest hMatch

theorem never_literalAnyCase (hMem : x ∈ text.toList) (hLarge : 0xFF < x.toNat) :
    ((literalAnyCase text).parser call a).Never := by
  intro c st v d s hRun
  unfold parser Parser.map Parser.onResult Parser.literalAnyCase at hRun
  rcases hMatch : Parser.matchAll Parser.sameButCase text.toList c with ⟨wanted, found⟩ | rest
  · simp [hMatch] at hRun
  · exact Parser.matchAll_bytes_ne_ok hMem (sameButCase_byte hLarge) c rest hMatch

theorem never_char (hLarge : 0xFF < x.toNat) : ((char x).parser call a).Never := by
  intro c st v d s hRun
  unfold char labelled parser parser Parser.label Parser.map Parser.onResult Parser.satisfy at hRun
  rcases hUncons : uncons c with _ | ⟨b, rest⟩
  · simp [hUncons] at hRun
  · simp [hUncons, toChar_byte_ne hLarge b] at hRun

end Grammar

end

/-! ## Runs side by side -/

/-- The cursor in the array of the characters of bytes, at the same index. -/
def SliceCursor.latin1 (c : SliceCursor UInt8) : SliceCursor Char where
  source := ⟨c.source.buffer, c.source.content.map Token.toChar⟩
  index := c.index
  index_le := by
    rw [Array.size_map]
    exact c.index_le

theorem SliceCursor.before_latin1 (c : SliceCursor UInt8) :
    InputView.before c.latin1 = (InputView.before c).map Token.toChar := by
  rw [SliceCursor.before_eq, SliceCursor.before_eq, map_take, ← Array.toList_map]
  rfl

theorem SliceCursor.after_latin1 (c : SliceCursor UInt8) :
    InputView.after c.latin1 = (InputView.after c).map Token.toChar := by
  rw [SliceCursor.after_eq, SliceCursor.after_eq, map_drop, ← Array.toList_map]
  rfl

/-- The characters of bytes. A byte ends a line if its character does. -/
theorem latin1_recoding : Recoding (SliceCursor UInt8) (SliceCursor Char) Token.toChar
    (Value.SpelledAlike { bytes := true }) where
  injective := toChar_byte_injective
  toChar _ := rfl
  isNewline b := by
    have hTen : Token.toChar (10 : UInt8) = '\n' := rfl
    show (Token.toChar b == '\n') = (b == 10)
    rw [← hTen]
    by_cases hEq : b = 10
    · rw [hEq]
      rfl
    · rw [beq_eq_false_iff_ne.mpr hEq, beq_eq_false_iff_ne.mpr fun h => hEq (toChar_byte_injective h)]
  toValue _ := rfl
  slice _ := rfl
  congruence := Value.spelledAlike_congruence _

/-- The cursors in arrays of bytes in one memory, and those in the arrays of their
characters. -/
def latin1 (memory : Nat → List UInt8) : Alignment (SliceCursor UInt8) (SliceCursor Char) :=
  .recoded latin1_recoding memory

theorem latin1_cursor {memory : Nat → List UInt8} {c : SliceCursor UInt8}
    (hMemory : InMemory memory c) : (latin1 memory).cursor c c.latin1 :=
  ⟨hMemory, rfl, c.before_latin1, c.after_latin1⟩

theorem eq_of_latin1_positions {memory : Nat → List UInt8} {c : SliceCursor UInt8}
    {d : SliceCursor Char} {p q : Nat} (h : (latin1 memory).Positions c d p q) : p = q := by
  obtain ⟨c', d', hReaches, rfl, rfl⟩ := h
  obtain ⟨-, -, hBefore, -⟩ := hReaches.cursor
  show c'.index = d'.index
  rw [← c'.length_before, ← d'.length_before, hBefore, length_map]

theorem latin1_matched (memory : Nat → List UInt8) :
    (latin1 memory).Matched memory fun buffer => (memory buffer).map Token.toChar :=
  Alignment.recoded_matched latin1_recoding memory

theorem eq_of_shifted {l m : List Record} (h : Forall₂ (Record.Shifted Eq) l m) : l = m := by
  have hEq := h.imp fun _ _ hShifted => hShifted.eq
  rwa [forall₂_eq_eq_eq] at hEq

/-- Two reports of runs over bytes and over their characters: corresponding results
at equal positions, with values in the relation `W`, and the same record. -/
structure BytesReport (W : Value → Value → Prop) (x : Report (SliceCursor UInt8))
    (y : Report (SliceCursor Char)) : Prop where
  result : SameResult Token.toChar Eq W x.result y.result
  trace : x.trace = y.trace

theorem bytesReport_of_reported {memory : Nat → List UInt8} {W : Value → Value → Prop}
    {c : SliceCursor UInt8} {d : SliceCursor Char} {x : Report (SliceCursor UInt8)}
    {y : Report (SliceCursor Char)} (h : (latin1 memory).Reported W c d x y) :
    BytesReport W x y := by
  have hSame : SameReport Token.toChar Eq W x y :=
    Alignment.Reported.sameReport h eq_of_latin1_positions
  exact ⟨hSame.result, eq_of_shifted hSame.trace⟩

namespace Session

variable {memory : Nat → List UInt8} {s : Session (SliceCursor UInt8)}
  {t : Session (SliceCursor Char)} {c : SliceCursor UInt8} {W : Value → Value → Prop} {g : Grammar}

theorem Paired.bytesReport (h : Paired (latin1 memory) s t) (hMemory : InMemory memory c)
    (hFollows : Follows (latin1_matched memory) s.program W g)
    (hFollows' : Follows (latin1_matched memory).flip s.program W g) :
    Option.Rel (fun x y => BytesReport W x.1 y.1) (s.parse g c) (t.parse g c.latin1) := by
  have hRel := (h.aligned (latin1_matched memory)).parse (latin1_cursor hMemory) hFollows hFollows'
  generalize s.parse g c = x at hRel ⊢
  generalize t.parse g c.latin1 = y at hRel ⊢
  cases hRel with
  | none => exact .none
  | some hReported => exact .some (bytesReport_of_reported hReported)

/-- The runs of paired sessions over bytes and over arrays of their characters
correspond: a run returns on one side if and only if it does on the other one, at
the same positions and with the same record, with values that are spelled alike.
Numerals have equal values on both sides, and nothing with a character above 255 is
found in bytes. -/
theorem Paired.bytes_chars (h : Paired (latin1 memory) s t) (hMemory : InMemory memory c) :
    (∀ g : Grammar, g.Alike (Value.SpelledAlike { bytes := true }) True g →
      Option.Rel (fun x y => BytesReport (Value.SpelledAlike { bytes := true }) x.1 y.1)
        (s.parse g c) (t.parse g c.latin1)) ∧
    Option.Rel (fun x y => BytesReport Eq x.1 y.1) (s.parse .integer c)
      (t.parse .integer c.latin1) ∧
    Option.Rel (fun x y => BytesReport Eq x.1 y.1) (s.parse .number c)
      (t.parse .number c.latin1) ∧
    ∀ (call : Reference → Parser (SliceCursor UInt8) Value) (a : Address) (x : Char),
      0xFF < x.toNat →
        ((Grammar.char x).parser call a).Never ∧
        ∀ text : String, x ∈ text.toList →
          ((Grammar.literal text).parser call a).Never ∧
          ((Grammar.literalAnyCase text).parser call a).Never := by
  have hAligned := h.aligned (latin1_matched memory)
  refine ⟨fun g hAlike => ?_, ?_, ?_, fun call a x hLarge => ⟨?_, fun text hMem => ⟨?_, ?_⟩⟩⟩
  · exact h.bytesReport hMemory (follows_alike _ hAligned.alike hAlike)
      (follows_alike _ hAligned.alike hAlike)
  · exact h.bytesReport hMemory (fun _ _ _ _ => Coupling.Simulates.integer)
      fun _ _ _ _ => Coupling.Simulates.integer
  · exact h.bytesReport hMemory (fun _ _ _ _ => Coupling.Simulates.number)
      fun _ _ _ _ => Coupling.Simulates.number
  · exact Grammar.never_char call a hLarge
  · exact Grammar.never_literal call a hMem hLarge
  · exact Grammar.never_literalAnyCase call a hMem hLarge

/-- A word is read and stored on both sides, and then it is read again, as a number
too. -/
theorem bytes_chars_of_stored :
    ∃ (s : Session (SliceCursor UInt8)) (t : Session (SliceCursor Char)),
      Paired (latin1 fun _ => [0x31, 0xE9]) s t ∧ (s.table "word").size = 1 ∧
      Option.Rel (fun x y => BytesReport (Value.SpelledAlike { bytes := true }) x.1 y.1)
        (s.parse (.call (.shared "word")) (.ofSource ⟨0, #[0x31, 0xE9]⟩))
        (t.parse (.call (.shared "word")) (SliceCursor.ofSource ⟨0, #[0x31, 0xE9]⟩).latin1) ∧
      Option.Rel (fun x y => BytesReport Eq x.1 y.1)
        (s.parse .number (.ofSource ⟨0, #[0x31, 0xE9]⟩))
        (t.parse .number (SliceCursor.ofSource ⟨0, #[0x31, 0xE9]⟩).latin1) := by
  let program : Program := { shared := [("word", .memo (.takeWhile1 fun c => c != 'a'))] }
  have hProgram : program.Alike (Value.SpelledAlike { bytes := true }) True program :=
    ⟨.nil, .cons ⟨rfl, .memo trivial (.takeWhile1 _)⟩ .nil⟩
  have hMemory : InMemory (fun _ => [0x31, 0xE9])
      (SliceCursor.ofSource (τ := UInt8) ⟨0, #[0x31, 0xE9]⟩) := ⟨[], rfl⟩
  obtain ⟨x, s, hLeft, hSize⟩ : ∃ x s, ({ program } : Session (SliceCursor UInt8)).parse
      (.call (.shared "word")) (.ofSource ⟨0, #[0x31, 0xE9]⟩) = some (x, s) ∧
      (s.table "word").size = 1 := ⟨_, _, rfl, rfl⟩
  have hChars : (SliceCursor.ofSource ⟨0, #[0x31, 0xE9]⟩).latin1 = .ofSource ⟨0, #['1', 'é']⟩ := by
    simp [SliceCursor.latin1, SliceCursor.ofSource, Token.toChar]
  obtain ⟨y, t, hRight⟩ : ∃ y t, ({ program } : Session (SliceCursor Char)).parse
      (.call (.shared "word")) (SliceCursor.ofSource ⟨0, #[0x31, 0xE9]⟩).latin1 = some (y, t) :=
    hChars ▸ ⟨_, _, rfl⟩
  have hPaired : Paired (latin1 fun _ => [0x31, 0xE9]) s t :=
    .parse (.start hProgram) (.call _) (latin1_cursor hMemory) hLeft hRight
  obtain ⟨hRun, -, hNumber, -⟩ := hPaired.bytes_chars hMemory
  exact ⟨s, t, hPaired, hSize, hRun _ (.call _), hNumber⟩

end Session

end Packrat

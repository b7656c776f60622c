import Mathlib.Data.List.Basic
import Mathlib.Data.List.Induction
import Packrat.Text.Utf8

/-!
# How encodings are read

The reader of bytes is a machine with a state for what it knows of the character that it is
inside. Its state says which bytes can still come, and one can always come, so it is inside a
character exactly on the first parts of the encodings of characters, and through with one
exactly on the whole of its encoding. Overlong forms, surrogates and values that are no
characters are left out because a character has one encoding.

* `octets`, `Encoded`: the encoding of a character by its value;
* `read`: the step that some bytes lead to;
* `Begins`, `start_cases`: what a first byte says about the others;
* `Pending.Awaits`, `Pending.Live.foldl_eq_complete_iff`: the bytes that are missing;
* `read_eq_complete_iff`: what is read is a character;
* `Unfinished`, `exists_read_eq_pending_iff`: what is read is the first part of one.
-/

namespace Packrat.Utf8

open List
open String (utf8EncodeChar)

/-! ## The bytes of a character -/

/-- The bytes of a character as numbers. -/
def octets (n : Nat) : List Nat :=
  if n ≤ 0x7F then [n]
  else if n ≤ 0x7FF then [n / 64 + 0xC0, n % 64 + 0x80]
  else if n ≤ 0xFFFF then [n / 4096 + 0xE0, n / 64 % 64 + 0x80, n % 64 + 0x80]
  else [n / 262144 + 0xF0, n / 4096 % 64 + 0x80, n / 64 % 64 + 0x80, n % 64 + 0x80]

theorem map_toNat_utf8EncodeChar (c : Char) :
    (utf8EncodeChar c).map UInt8.toNat = octets c.toNat := by
  have hValid : c.toNat.isValidChar := c.valid
  have hVal : c.val.toNat = c.toNat := rfl
  simp only [utf8EncodeChar, octets, hVal]
  generalize c.toNat = v at hValid
  unfold Nat.isValidChar at hValid
  -- the bytes are taken modulo 256, which their values do not reach
  split
  · simp only [map_cons, map_nil, UInt8.toNat_ofNat', cons.injEq, and_true]
    omega
  split
  · simp only [map_cons, map_nil, UInt8.toNat_ofNat', cons.injEq, and_true]
    omega
  split
  · simp only [map_cons, map_nil, UInt8.toNat_ofNat', cons.injEq, and_true]
    omega
  · simp only [map_cons, map_nil, UInt8.toNat_ofNat', cons.injEq, and_true]
    omega

theorem eq_utf8EncodeChar_iff {bytes : List UInt8} {c : Char} :
    bytes = utf8EncodeChar c ↔ bytes.map UInt8.toNat = octets c.toNat := by
  rw [← map_toNat_utf8EncodeChar]
  exact (List.map_inj_right fun _ _ => UInt8.toNat_inj.mp).symm

/-- A first byte and more bytes that encode the character of a value, by their number. -/
inductive Encoded (n : Nat) (b : UInt8) : List UInt8 → Prop
  | one (hn : n ≤ 0x7F) (hb : b.toNat = n) : Encoded n b []
  | two {x : UInt8} (hn : 0x7F < n ∧ n ≤ 0x7FF) (hb : b.toNat = n / 64 + 0xC0)
    (hx : x.toNat = n % 64 + 0x80) : Encoded n b [x]
  | three {x y : UInt8} (hn : 0x7FF < n ∧ n ≤ 0xFFFF) (hb : b.toNat = n / 4096 + 0xE0)
    (hx : x.toNat = n / 64 % 64 + 0x80) (hy : y.toNat = n % 64 + 0x80) : Encoded n b [x, y]
  | four {x y z : UInt8} (hn : 0xFFFF < n) (hb : b.toNat = n / 262144 + 0xF0)
    (hx : x.toNat = n / 4096 % 64 + 0x80) (hy : y.toNat = n / 64 % 64 + 0x80)
    (hz : z.toNat = n % 64 + 0x80) : Encoded n b [x, y, z]

theorem cons_eq_utf8EncodeChar_iff {b : UInt8} {bytes : List UInt8} {c : Char} :
    b :: bytes = utf8EncodeChar c ↔ Encoded c.toNat b bytes := by
  rw [eq_utf8EncodeChar_iff, map_cons, octets]
  generalize c.toNat = n
  constructor
  · intro h
    split at h
    case isTrue hOne =>
      obtain ⟨hb, hMore⟩ := cons.inj h
      obtain rfl := map_eq_nil_iff.mp hMore
      exact .one hOne hb
    split at h
    case isTrue hOne hTwo =>
      obtain ⟨hb, hMore⟩ := cons.inj h
      obtain ⟨x, rfl, hx⟩ := map_eq_singleton_iff.mp hMore
      exact .two ⟨Nat.lt_of_not_le hOne, hTwo⟩ hb hx
    split at h
    case isTrue hTwo hThree =>
      obtain ⟨hb, hMore⟩ := cons.inj h
      obtain ⟨x, more, rfl, hx, hMore⟩ := map_eq_cons_iff.mp hMore
      obtain ⟨y, rfl, hy⟩ := map_eq_singleton_iff.mp hMore
      exact .three ⟨Nat.lt_of_not_le hTwo, hThree⟩ hb hx hy
    case isFalse hThree =>
      obtain ⟨hb, hMore⟩ := cons.inj h
      obtain ⟨x, more, rfl, hx, hMore⟩ := map_eq_cons_iff.mp hMore
      obtain ⟨y, more, rfl, hy, hMore⟩ := map_eq_cons_iff.mp hMore
      obtain ⟨z, rfl, hz⟩ := map_eq_singleton_iff.mp hMore
      exact .four (Nat.lt_of_not_le hThree) hb hx hy hz
  · intro h
    cases h with
    | one hn hb => rw [if_pos hn, hb, map_nil]
    | two hn hb hx =>
      rw [if_neg (by omega), if_pos hn.2, map_cons, map_nil, hb, hx]
    | three hn hb hx hy =>
      rw [if_neg (by omega), if_neg (by omega), if_pos hn.2, map_cons, map_cons, map_nil, hb, hx,
        hy]
    | four hn hb hx hy hz =>
      rw [if_neg (by omega), if_neg (by omega), if_neg (by omega), map_cons, map_cons, map_cons,
        map_nil, hb, hx, hy, hz]

theorem toNat_ofNat_of_valid {n : Nat} (h : n.isValidChar) : (Char.ofNat n).toNat = n := by
  rw [Char.ofNat, dif_pos h]
  rfl

/-- The bytes that encode the character of a value are those of that character. -/
theorem Encoded.eq_utf8EncodeChar {n : Nat} {b : UInt8} {bytes : List UInt8}
    (h : Encoded n b bytes) (hValid : n.isValidChar) :
    b :: bytes = utf8EncodeChar (Char.ofNat n) := by
  rwa [cons_eq_utf8EncodeChar_iff, toNat_ofNat_of_valid hValid]

/-! ## Steps -/

/-- The first byte of a character of several bytes, and what is known of the character after
it. -/
inductive Begins (b : UInt8) (p : Pending) : Prop
  | two (hb : 0xC2 ≤ b.toNat ∧ b.toNat < 0xE0) (hBits : p.bits + 0xC0 = b.toNat)
    (hMissing : p.missing = 1) (hLow : p.low.toNat = 0x80) (hHigh : p.high.toNat = 0xBF)
  | three (hb : 0xE0 ≤ b.toNat ∧ b.toNat < 0xF0) (hBits : p.bits + 0xE0 = b.toNat)
    (hMissing : p.missing = 2)
    (hLow : b.toNat = 0xE0 ∧ p.low.toNat = 0xA0 ∨ b.toNat ≠ 0xE0 ∧ p.low.toNat = 0x80)
    (hHigh : b.toNat = 0xED ∧ p.high.toNat = 0x9F ∨ b.toNat ≠ 0xED ∧ p.high.toNat = 0xBF)
  | four (hb : 0xF0 ≤ b.toNat ∧ b.toNat < 0xF5) (hBits : p.bits + 0xF0 = b.toNat)
    (hMissing : p.missing = 3)
    (hLow : b.toNat = 0xF0 ∧ p.low.toNat = 0x90 ∨ b.toNat ≠ 0xF0 ∧ p.low.toNat = 0x80)
    (hHigh : b.toNat = 0xF4 ∧ p.high.toNat = 0x8F ∨ b.toNat ≠ 0xF4 ∧ p.high.toNat = 0xBF)

theorem start_eq (b : UInt8) : start b =
    if b.toNat < 0x80 then .complete (Char.ofNat b.toNat)
    else if b.toNat < 0xC2 then .invalid
    else if b.toNat < 0xE0 then .pending ⟨b.toNat - 0xC0, 1, 0x80, 0xBF⟩
    else if b.toNat < 0xF0 then .pending ⟨b.toNat - 0xE0, 2,
      if b.toNat = 0xE0 then 0xA0 else 0x80, if b.toNat = 0xED then 0x9F else 0xBF⟩
    else if b.toNat < 0xF5 then .pending ⟨b.toNat - 0xF0, 3,
      if b.toNat = 0xF0 then 0x90 else 0x80, if b.toNat = 0xF4 then 0x8F else 0xBF⟩
    else .invalid := by
  simp only [start, UInt8.lt_iff_toNat_lt, ← UInt8.toNat_inj]
  rfl

/-- One of two bytes as a number. -/
theorem toNat_ite (m n : Nat) (x y : UInt8) :
    m = n ∧ (if m = n then x else y).toNat = x.toNat ∨
      m ≠ n ∧ (if m = n then x else y).toNat = y.toNat := by
  by_cases h : m = n
  · exact .inl ⟨h, by rw [if_pos h]⟩
  · exact .inr ⟨h, by rw [if_neg h]⟩

/-- A byte between two characters is one, or begins one, or does neither. -/
theorem start_cases (b : UInt8) :
    (b.toNat < 0x80 ∧ start b = .complete (Char.ofNat b.toNat)) ∨
    (∃ p, Begins b p ∧ start b = .pending p) ∨
    ((0x80 ≤ b.toNat ∧ b.toNat < 0xC2 ∨ 0xF5 ≤ b.toNat) ∧ start b = .invalid) := by
  rw [start_eq]
  by_cases hOne : b.toNat < 0x80
  · exact .inl ⟨hOne, if_pos hOne⟩
  rw [if_neg hOne]
  by_cases hNone : b.toNat < 0xC2
  · exact .inr (.inr ⟨.inl ⟨Nat.le_of_not_lt hOne, hNone⟩, if_pos hNone⟩)
  rw [if_neg hNone]
  by_cases hTwo : b.toNat < 0xE0
  · refine .inr (.inl ⟨_, ?_, if_pos hTwo⟩)
    exact .two ⟨Nat.le_of_not_lt hNone, hTwo⟩ (by dsimp only; omega) rfl rfl rfl
  rw [if_neg hTwo]
  by_cases hThree : b.toNat < 0xF0
  · refine .inr (.inl ⟨_, ?_, if_pos hThree⟩)
    exact .three ⟨Nat.le_of_not_lt hTwo, hThree⟩ (by dsimp only; omega) rfl
      (toNat_ite _ _ _ _) (toNat_ite _ _ _ _)
  rw [if_neg hThree]
  by_cases hFour : b.toNat < 0xF5
  · refine .inr (.inl ⟨_, ?_, if_pos hFour⟩)
    exact .four ⟨Nat.le_of_not_lt hThree, hFour⟩ (by dsimp only; omega) rfl
      (toNat_ite _ _ _ _) (toNat_ite _ _ _ _)
  · exact .inr (.inr ⟨.inr (Nat.le_of_not_lt hFour), if_neg hFour⟩)

/-- What a byte leads to after a step. -/
def Step.next : Step → UInt8 → Step
  | .pending p, b => p.next b
  | _, _ => .invalid

/-- What some bytes lead to from between two characters. -/
def read : List UInt8 → Step
  | [] => .invalid
  | b :: bytes => bytes.foldl Step.next (start b)

theorem foldl_next_invalid (bytes : List UInt8) :
    bytes.foldl Step.next .invalid = .invalid := by
  induction bytes with
  | nil => rfl
  | cons b bytes ih => exact ih

theorem foldl_next_complete {c : Char} {bytes : List UInt8} (hSome : bytes ≠ []) :
    bytes.foldl Step.next (.complete c) = .invalid := by
  cases bytes with
  | nil => exact absurd rfl hSome
  | cons b bytes => exact foldl_next_invalid bytes

theorem read_append {bytes : List UInt8} (hSome : bytes ≠ []) (more : List UInt8) :
    read (bytes ++ more) = more.foldl Step.next (read bytes) := by
  cases bytes with
  | nil => exact absurd rfl hSome
  | cons b bytes => exact foldl_append

/-! ## Missing bytes -/

/-- Whether a byte can stand after the second one of a character. -/
def isTail (b : UInt8) : Prop :=
  0x80 ≤ b.toNat ∧ b.toNat ≤ 0xBF

theorem isTail_of_eq {b : UInt8} {n : Nat} (h : b.toNat = n % 64 + 0x80) : isTail b := by
  unfold isTail
  omega

/-- The value of the bits read so far and the last six bits of some more bytes. -/
def value (bits : Nat) : List UInt8 → Nat
  | [] => bits
  | b :: bytes => value (bits * 64 + b.toNat % 64) bytes

/-- Some bytes are those that are missing from a character. -/
structure Pending.Awaits (p : Pending) (bytes : List UInt8) (c : Char) : Prop where
  length_eq : bytes.length = p.missing
  head : ∀ b ∈ bytes.head?, p.low.toNat ≤ b.toNat ∧ b.toNat ≤ p.high.toNat
  tail : ∀ b ∈ bytes.tail, isTail b
  eq_ofNat : c = Char.ofNat (value p.bits bytes)

/-- A byte is missing, and there is one that can come next. -/
structure Pending.Live (p : Pending) : Prop where
  missing_ne : p.missing ≠ 0
  low_ge : 0x80 ≤ p.low.toNat
  low_le_high : p.low.toNat ≤ p.high.toNat
  high_le : p.high.toNat ≤ 0xBF

theorem Pending.Live.next_eq {p : Pending} (h : p.Live) (b : UInt8) : p.next b =
    if p.low.toNat ≤ b.toNat ∧ b.toNat ≤ p.high.toNat then
      if p.missing = 1 then .complete (Char.ofNat (value p.bits [b]))
      else .pending ⟨value p.bits [b], p.missing - 1, 0x80, 0xBF⟩
    else .invalid := by
  simp only [Pending.next, UInt8.le_iff_toNat_le, value]
  by_cases hRange : p.low.toNat ≤ b.toNat ∧ b.toNat ≤ p.high.toNat
  · have hBits : b.toNat - 0x80 = b.toNat % 64 := by
      have hLow := h.low_ge
      have hHigh := h.high_le
      omega
    rw [if_pos hRange, if_pos hRange, hBits]
  · rw [if_neg hRange, if_neg hRange]

/-- What is left of a character when one more byte has been read. -/
theorem Pending.live_tails {bits n : Nat} (h : n ≠ 0) :
    Pending.Live ⟨bits, n, 0x80, 0xBF⟩ where
  missing_ne := h
  low_ge := Nat.le_refl _
  low_le_high := (by decide : (0x80 : UInt8).toNat ≤ (0xBF : UInt8).toNat)
  high_le := Nat.le_refl _

theorem Pending.awaits_cons_iff {p : Pending} {b : UInt8} {bytes : List UInt8} {c : Char} :
    p.Awaits (b :: bytes) c ↔ (p.low.toNat ≤ b.toNat ∧ b.toNat ≤ p.high.toNat) ∧
      bytes.length + 1 = p.missing ∧ (∀ x ∈ bytes, isTail x) ∧
      c = Char.ofNat (value (value p.bits [b]) bytes) := by
  constructor
  · rintro ⟨hLength, hHead, hTail, hValue⟩
    exact ⟨hHead b rfl, hLength, hTail, hValue⟩
  · rintro ⟨hHead, hLength, hTail, hValue⟩
    refine ⟨hLength, fun x hx => ?_, hTail, hValue⟩
    cases hx
    exact hHead

/-- After its second byte a character awaits as many bytes of one range. -/
theorem Pending.awaits_tails_iff {bits n : Nat} {bytes : List UInt8} {c : Char} :
    Pending.Awaits ⟨bits, n, 0x80, 0xBF⟩ bytes c ↔
      bytes.length = n ∧ (∀ b ∈ bytes, isTail b) ∧ c = Char.ofNat (value bits bytes) := by
  constructor
  · rintro ⟨hLength, hHead, hTail, hValue⟩
    refine ⟨hLength, ?_, hValue⟩
    cases bytes with
    | nil => exact forall_mem_nil _
    | cons b bytes => exact forall_mem_cons.mpr ⟨hHead b rfl, hTail⟩
  · rintro ⟨hLength, hTail, hValue⟩
    exact ⟨hLength, fun b hb => hTail b (mem_of_mem_head? hb),
      fun b hb => hTail b (mem_of_mem_tail hb), hValue⟩

/-- Reading goes on with a character to its end exactly on the bytes that are missing from it,
by induction on the bytes. -/
theorem Pending.Live.foldl_eq_complete_iff {p : Pending} (h : p.Live) {bytes : List UInt8}
    {c : Char} : bytes.foldl Step.next (.pending p) = .complete c ↔ p.Awaits bytes c := by
  induction bytes generalizing p with
  | nil =>
    constructor
    · exact fun h => nomatch h
    · exact fun hAwaits => absurd hAwaits.length_eq.symm h.missing_ne
  | cons b bytes ih =>
    rw [foldl_cons, Step.next, h.next_eq, awaits_cons_iff]
    by_cases hRange : p.low.toNat ≤ b.toNat ∧ b.toNat ≤ p.high.toNat
    · rw [if_pos hRange]
      by_cases hLast : p.missing = 1
      · rw [if_pos hLast, hLast]
        rcases bytes with _ | ⟨x, bytes⟩
        · simp [hRange, value, eq_comm]
        · rw [foldl_next_complete (cons_ne_nil x bytes)]
          exact ⟨fun h => (nomatch h), fun h => (nomatch h.2.1)⟩
      · have hSome := h.missing_ne
        rw [if_neg hLast, ih (live_tails (by omega)), awaits_tails_iff]
        have hLength : bytes.length = p.missing - 1 ↔ bytes.length + 1 = p.missing := by omega
        simp only [hRange, hLength, and_self, true_and]
    · rw [if_neg hRange, foldl_next_invalid]
      exact ⟨fun h => (nomatch h), fun h => absurd h.1 hRange⟩

/-! ## Whole characters -/

namespace Begins

variable {b : UInt8} {p : Pending} {bytes : List UInt8} {c : Char}

theorem live (h : Begins b p) : p.Live := by
  cases h <;> constructor <;> omega

theorem eq_utf8EncodeChar (h : Begins b p) (hAwaits : p.Awaits bytes c) :
    b :: bytes = utf8EncodeChar c := by
  obtain ⟨hLength, hHead, hTail, rfl⟩ := hAwaits
  cases h with
  | two hb hBits hMissing hLow hHigh =>
    obtain ⟨x, rfl⟩ := length_eq_one_iff.mp (hLength.trans hMissing)
    have hx := hHead x rfl
    unfold value value
    apply Encoded.eq_utf8EncodeChar
    · exact .two (by omega) (by omega) (by omega)
    · unfold Nat.isValidChar
      omega
  | three hb hBits hMissing hLow hHigh =>
    obtain ⟨x, y, rfl⟩ := List.length_eq_two.mp (hLength.trans hMissing)
    have hx := hHead x rfl
    obtain ⟨hy, hy'⟩ := hTail y (by simp)
    unfold value value value
    apply Encoded.eq_utf8EncodeChar
    · exact .three (by omega) (by omega) (by omega) (by omega)
    · unfold Nat.isValidChar
      omega
  | four hb hBits hMissing hLow hHigh =>
    obtain ⟨x, y, z, rfl⟩ := List.length_eq_three.mp (hLength.trans hMissing)
    have hx := hHead x rfl
    obtain ⟨hy, hy'⟩ := hTail y (by simp)
    obtain ⟨hz, hz'⟩ := hTail z (by simp)
    unfold value value value value
    apply Encoded.eq_utf8EncodeChar
    · exact .four (by omega) (by omega) (by omega) (by omega) (by omega)
    · unfold Nat.isValidChar
      omega

/-- The first bytes of encodings of different lengths lie in different ranges, so that the other
bytes are as many as are missing. -/
theorem awaits (h : Begins b p) (hEq : b :: bytes = utf8EncodeChar c) : p.Awaits bytes c := by
  have hValid : c.toNat.isValidChar := c.valid
  rw [cons_eq_utf8EncodeChar_iff] at hEq
  rw [← Char.ofNat_toNat c]
  generalize c.toNat = n at hEq hValid
  unfold Nat.isValidChar at hValid
  cases hEq with
  | one hn hb => cases h <;> omega
  | @two x hn hb hx =>
    cases h with
    | two hLead hBits hMissing hLow hHigh =>
      rw [Pending.awaits_cons_iff]
      refine ⟨by omega, hMissing.symm, forall_mem_nil _, congrArg _ ?_⟩
      unfold value value value
      omega
    | three | four => omega
  | @three x y hn hb hx hy =>
    cases h with
    | three hLead hBits hMissing hLow hHigh =>
      rw [Pending.awaits_cons_iff]
      refine ⟨by omega, hMissing.symm, forall_mem_singleton.mpr (isTail_of_eq hy), congrArg _ ?_⟩
      unfold value value value value
      omega
    | two | four => omega
  | @four x y z hn hb hx hy hz =>
    cases h with
    | four hLead hBits hMissing hLow hHigh =>
      rw [Pending.awaits_cons_iff]
      refine ⟨by omega, hMissing.symm, forall_mem_cons.mpr ⟨isTail_of_eq hy,
        forall_mem_singleton.mpr (isTail_of_eq hz)⟩, congrArg _ ?_⟩
      unfold value value value value value
      omega
    | two | three => omega

end Begins

/-- The first byte of a character. -/
theorem lead_cases {b : UInt8} {bytes : List UInt8} {c : Char} (h : b :: bytes = utf8EncodeChar c) :
    (b.toNat < 0x80 ∧ bytes = [] ∧ c = Char.ofNat b.toNat) ∨
      (0xC2 ≤ b.toNat ∧ b.toNat < 0xF5) := by
  have hValid : c.toNat.isValidChar := c.valid
  unfold Nat.isValidChar at hValid
  cases cons_eq_utf8EncodeChar_iff.mp h with
  | one hn hb => exact .inl ⟨by omega, rfl, by rw [hb, Char.ofNat_toNat]⟩
  | two | three | four =>
    right
    omega

theorem utf8EncodeChar_ofNat {b : UInt8} (h : b.toNat < 0x80) :
    [b] = utf8EncodeChar (Char.ofNat b.toNat) :=
  (Encoded.one (Nat.le_of_lt_succ h) rfl).eq_utf8EncodeChar (.inl (by omega))

/-- Reading ends with a character exactly on the bytes of it. -/
theorem read_eq_complete_iff {bytes : List UInt8} {c : Char} :
    read bytes = .complete c ↔ bytes = utf8EncodeChar c := by
  rcases bytes with _ | ⟨b, bytes⟩
  · exact ⟨fun h => (nomatch h), fun h => absurd h.symm String.utf8EncodeChar_ne_nil⟩
  rw [read]
  rcases start_cases b with ⟨hOne, hStart⟩ | ⟨p, hBegins, hStart⟩ | ⟨hNone, hStart⟩
  · rw [hStart]
    constructor
    · intro h
      rcases bytes with _ | ⟨x, bytes⟩
      · cases h
        exact utf8EncodeChar_ofNat hOne
      · rw [foldl_next_complete (cons_ne_nil x bytes)] at h
        cases h
    · intro h
      rcases lead_cases h with ⟨-, rfl, rfl⟩ | ⟨hLead, -⟩
      · rfl
      · omega
  · rw [hStart, hBegins.live.foldl_eq_complete_iff]
    exact ⟨hBegins.eq_utf8EncodeChar, hBegins.awaits⟩
  · rw [hStart, foldl_next_invalid]
    refine ⟨fun h => (nomatch h), fun h => ?_⟩
    rcases lead_cases h with ⟨hLead, -⟩ | hLead <;> omega

/-! ## First parts of characters -/

/-- Some bytes, and at least one more of a character. -/
def Unfinished (bytes : List UInt8) : Prop :=
  ∃ more c, more ≠ [] ∧ bytes ++ more = utf8EncodeChar c

theorem Pending.Live.next {p q : Pending} (h : p.Live) {b : UInt8} (hNext : p.next b = .pending q) :
    q.Live := by
  rw [h.next_eq] at hNext
  split at hNext
  · split at hNext
    · cases hNext
    · obtain rfl := Step.pending.inj hNext
      have hSome := h.missing_ne
      exact live_tails (by omega)
  · cases hNext

/-- Wherever reading is inside a character, there is a way on. -/
theorem live_of_read {bytes : List UInt8} {p : Pending} (h : read bytes = .pending p) :
    p.Live := by
  induction bytes using reverseRecOn generalizing p with
  | nil => cases h
  | append_singleton bytes b ih =>
    rcases eq_or_ne bytes [] with rfl | hSome
    · rcases start_cases b with ⟨-, hStart⟩ | ⟨q, hBegins, hStart⟩ | ⟨-, hStart⟩
      · cases hStart.symm.trans h
      · cases hStart.symm.trans h
        exact hBegins.live
      · cases hStart.symm.trans h
    · rw [read_append hSome] at h
      rcases hRead : read bytes with c | q | _
      · rw [hRead] at h
        cases h
      · rw [hRead] at h
        exact (ih hRead).next h
      · rw [hRead] at h
        cases h

/-- There is a character that a pending one can become. -/
theorem Pending.Live.exists_awaits {p : Pending} (h : p.Live) :
    ∃ more c, more ≠ [] ∧ p.Awaits more c := by
  refine ⟨p.low :: replicate (p.missing - 1) 0x80, _, cons_ne_nil _ _, ?_, ?_, ?_, rfl⟩
  · have hSome := h.missing_ne
    rw [length_cons, length_replicate]
    omega
  · rintro b hb
    cases hb
    exact ⟨Nat.le_refl _, h.low_le_high⟩
  · rintro b hb
    rw [eq_of_mem_replicate hb]
    exact ⟨by decide, by decide⟩

/-- Reading is inside a character exactly on the first parts of characters. -/
theorem exists_read_eq_pending_iff {bytes : List UInt8} (hSome : bytes ≠ []) :
    (∃ p, read bytes = .pending p) ↔ Unfinished bytes := by
  constructor
  · rintro ⟨p, hRead⟩
    have hLive := live_of_read hRead
    obtain ⟨more, c, hMore, hAwaits⟩ := hLive.exists_awaits
    refine ⟨more, c, hMore, read_eq_complete_iff.mp ?_⟩
    rw [read_append hSome, hRead]
    exact hLive.foldl_eq_complete_iff.mpr hAwaits
  · rintro ⟨more, c, hMore, hEq⟩
    have hWhole := read_eq_complete_iff.mpr hEq
    rw [read_append hSome] at hWhole
    rcases hRead : read bytes with d | p | _
    · rw [hRead, foldl_next_complete hMore] at hWhole
      cases hWhole
    · exact ⟨p, rfl⟩
    · rw [hRead, foldl_next_invalid] at hWhole
      cases hWhole

end Packrat.Utf8

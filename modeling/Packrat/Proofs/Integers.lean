import Packrat.Input.Slice.Lemmas
import Packrat.Input.Text.Lemmas
import Packrat.Proofs.Simulation.Numeral
import Packrat.Proofs.TokenRuns

/-!
# Integers

An integer is read exactly. From what comes after a cursor, an optional sign and the longest
run of digits are taken; if there are digits and the number that they stand for has 64 bits,
it is the value, and nothing else is read. The digits are summed up with a check at each
step, and a step fails only where the whole number is too large, since the numbers on the
way are never larger than the last one.

* `IntegerText`: the sign, the digits and the number that some characters start with;
* `Numeral.toInt64?_eq`: the checked sum of the digits, by induction on the digits;
* `Parser.ReadsInteger`: what it is to read an integer exactly;
* `Grammar.integer_cases`: the run of an integer by what comes after the cursor;
* `Grammar.readsInteger`: at every cursor an integer is read exactly.
-/

namespace Packrat

open Input List

/-! ## Characters -/

namespace IntegerText

/-- The sign that some characters start with, if they do. -/
def sign : List Char → List Char
  | '+' :: _ => ['+']
  | '-' :: _ => ['-']
  | _ => []

/-- What comes after the sign. -/
def unsigned (s : List Char) : List Char :=
  s.drop (sign s).length

/-- The longest run of digits after the sign. -/
def digits (s : List Char) : List Char :=
  (unsigned s).takeWhile Char.isDigit

/-- The number that the sign and the digits stand for. -/
def number (s : List Char) : Int :=
  if sign s = ['-'] then -(Nat.ofDigitChars 10 (digits s) 0 : Int)
  else Nat.ofDigitChars 10 (digits s) 0

/-- The words of a failure where another character should stand first. -/
def complaint : List Char → String
  | [] => "unexpected end of input"
  | c :: _ => "unexpected " ++ Quoted.char c

/-- What follows the sign is all that is left. -/
theorem unsigned_eq {s t : List Char} (h : s = sign s ++ t) : unsigned s = t := by
  unfold unsigned
  generalize sign s = u at h ⊢
  rw [h, drop_left]

/-- A sign is the first character, if it is one of the two. -/
theorem sign_eq_filter (s : List Char) :
    sign s = (s.head?.filter "+-".toList.contains).toList := by
  unfold sign
  split
  · rfl
  · rfl
  · rename_i hPlus hMinus
    cases s with
    | nil => rfl
    | cons c s =>
      have hNone : ¬"+-".toList.contains c := by
        intro hSign
        rcases mem_cons.mp (contains_iff_mem.mp hSign) with rfl | hMem
        · exact hPlus s rfl
        · rw [mem_singleton.mp hMem] at hMinus
          exact hMinus s rfl
      rw [head?_cons, Option.filter_some, if_neg hNone]
      rfl

/-- A digit is no sign. -/
theorem sign_eq_nil {c : Char} {s : List Char} (h : c.isDigit) : sign (c :: s) = [] := by
  unfold sign
  split
  · rename_i hEq
    cases hEq
    cases h
  · rename_i hEq
    cases hEq
    cases h
  · rfl

theorem toList_toString (n : Int) :
    (toString n).toList = (if n < 0 then ['-'] else []) ++ Nat.toDigits 10 n.natAbs := by
  cases n with
  | ofNat m => exact Nat.toList_repr
  | negSucc m =>
    rw [if_pos (Int.negSucc_lt_zero m)]
    exact String.toList_append.trans (congrArg ("-".toList ++ ·) Nat.toList_repr)

theorem isDigit_of_mem {m : Nat} {c : Char} (h : c ∈ Nat.toDigits 10 m) : c.isDigit :=
  Nat.isDigit_of_mem_toDigits (by decide) (by decide) h

/-! The text of an integer, if no other digit follows. -/

variable {n : Int} {suffix : List Char}

theorem sign_toString (n : Int) (suffix : List Char) :
    sign ((toString n).toList ++ suffix) = if n < 0 then ['-'] else [] := by
  rw [toList_toString, append_assoc]
  split
  · rfl
  · obtain ⟨c, digits, hCons⟩ :=
      exists_cons_of_ne_nil (Nat.toDigits_ne_nil (n := n.natAbs) (b := 10))
    have hDigit : c.isDigit := isDigit_of_mem (hCons ▸ mem_cons_self)
    rw [hCons]
    exact sign_eq_nil hDigit

theorem digits_toString (hSuffix : ∀ x ∈ suffix.head?, ¬x.isDigit) :
    digits ((toString n).toList ++ suffix) = Nat.toDigits 10 n.natAbs := by
  have hUnsigned : unsigned ((toString n).toList ++ suffix) =
      Nat.toDigits 10 n.natAbs ++ suffix := by
    refine unsigned_eq ?_
    rw [sign_toString, toList_toString, append_assoc]
  have hStop : suffix.takeWhile Char.isDigit = [] := by
    cases suffix with
    | nil => rfl
    | cons c suffix => exact takeWhile_cons_of_neg (hSuffix c rfl)
  rw [digits, hUnsigned, takeWhile_append_of_pos fun c => isDigit_of_mem, hStop, append_nil]

theorem sign_append_digits (hSuffix : ∀ x ∈ suffix.head?, ¬x.isDigit) :
    sign ((toString n).toList ++ suffix) ++ digits ((toString n).toList ++ suffix) =
      (toString n).toList := by
  rw [sign_toString, digits_toString hSuffix, toList_toString]

theorem number_toString (hSuffix : ∀ x ∈ suffix.head?, ¬x.isDigit) :
    number ((toString n).toList ++ suffix) = n := by
  rw [number, sign_toString, digits_toString hSuffix, Nat.ofDigitChars_ten_toDigits]
  by_cases hNegative : n < 0
  · rw [if_pos hNegative, if_pos rfl]
    omega
  · rw [if_neg hNegative, if_neg (by decide)]
    omega

end IntegerText

/-! ## Digits -/

namespace Numeral

/-- The largest magnitude of an integer of 64 bits with a sign. -/
def limit (negative : Bool) : Nat :=
  if negative then 2 ^ 63 else 2 ^ 63 - 1

/-- The number with a sign and a magnitude. -/
def signed (negative : Bool) (n : Nat) : Int :=
  if negative then -(n : Int) else n

theorem fits?_eq (n : Int) :
    fits? n = if -2 ^ 63 ≤ n ∧ n ≤ 2 ^ 63 - 1 then some n else none := rfl

theorem fits?_signed (negative : Bool) (n : Nat) : fits? (signed negative n) =
    if n ≤ limit negative then some (signed negative n) else none := by
  rw [fits?_eq]
  unfold limit signed
  cases negative
  · congr 1
    simp only [Bool.false_eq_true, if_false, eq_iff_iff]
    omega
  · congr 1
    simp only [if_true, eq_iff_iff]
    omega

/-- A step fails only if the number with one more digit is too large. -/
theorem shift?_signed (negative : Bool) (n digit : Nat) :
    shift? negative (signed negative n) digit =
      if n * 10 + digit ≤ limit negative then some (signed negative (n * 10 + digit))
        else none := by
  have hTens : signed negative n * 10 = signed negative (n * 10) := by
    unfold signed
    split <;> omega
  have hSum : (signed negative (n * 10) + if negative then -(digit : Int) else digit) =
      signed negative (n * 10 + digit) := by
    unfold signed
    split <;> omega
  unfold shift?
  rw [hTens, fits?_signed]
  by_cases hLe : n * 10 ≤ limit negative
  · rw [if_pos hLe]
    exact (congrArg fits? hSum).trans (fits?_signed _ _)
  · rw [if_neg hLe, if_neg fun h => hLe (Nat.le_trans (Nat.le_add_right _ _) h)]
    rfl

/-- More digits never make a number smaller. -/
theorem le_foldl_digits (digits : List Nat) :
    ∀ n, n ≤ digits.foldl (fun n digit => n * 10 + digit) n := by
  induction digits with
  | nil => exact Nat.le_refl
  | cons digit digits ih =>
    intro n
    have hStep : n ≤ n * 10 + digit := by omega
    exact Nat.le_trans hStep (ih _)

/-- The steps fail if and only if the last number is too large, by induction on the
digits: a number on the way that is too large is not larger than the last one. -/
theorem foldlM_shift? (negative : Bool) (digits : List Nat) : ∀ {n}, n ≤ limit negative →
    digits.foldlM (shift? negative) (signed negative n) =
      if digits.foldl (fun n digit => n * 10 + digit) n ≤ limit negative then
        some (signed negative (digits.foldl (fun n digit => n * 10 + digit) n)) else none := by
  induction digits with
  | nil =>
    intro n hLe
    exact (if_pos hLe).symm
  | cons digit digits ih =>
    intro n hLe
    rw [foldlM_cons, shift?_signed, foldl_cons]
    by_cases hNext : n * 10 + digit ≤ limit negative
    · rw [if_pos hNext]
      exact ih hNext
    · have hLast := le_foldl_digits digits (n * 10 + digit)
      rw [if_neg hNext, if_neg (by omega)]
      rfl

/-- It is enough to check the whole number. -/
theorem toInt64?_eq (negative : Bool) (digits : List Nat) :
    toInt64? negative digits = (fits? (signed negative (ofDigits digits))).map .ofInt := by
  have hStart : signed negative 0 = 0 := by cases negative <;> rfl
  have hFold := foldlM_shift? negative digits (Nat.zero_le (limit negative))
  unfold toInt64? ofDigits
  rw [← hStart, hFold, fits?_signed]

/-- The digits of some characters make up the number that the characters spell. -/
theorem ofDigits_digitValue {s : List Char} (h : ∀ c ∈ s, c.isDigit) :
    ofDigits (s.map Operation.digitValue) = Nat.ofDigitChars 10 s 0 := by
  unfold ofDigits
  rw [Nat.ofDigitChars_eq_foldl, foldl_map]
  generalize 0 = n
  induction s generalizing n with
  | nil => rfl
  | cons c s ih =>
    obtain ⟨hDigit, hRest⟩ := forall_mem_cons.mp h
    rw [foldl_cons, foldl_cons, ih hRest, Operation.digitValue, if_pos hDigit, Nat.mul_comm]

end Numeral

/-! ## Grammars -/

open IntegerText Run

variable {C τ σ : Type} [Input C τ σ] [InputView C τ σ] [Token τ]

/-- The characters of the unread tokens. -/
def unread (c : C) : List Char :=
  (after c).map Token.toChar

/-- What it is to read an integer exactly at a cursor. The state is not heeded, and it is
not changed. -/
structure Parser.ReadsInteger (p : Parser C Value) (c : C) : Prop where
  /-- A number of 64 bits is the value, and the sign and the digits are read. -/
  exact : digits (unread c) ≠ [] →
    -2 ^ 63 ≤ number (unread c) ∧ number (unread c) ≤ 2 ^ 63 - 1 → ∀ st,
    ∃ n d tokens, p c st = some (.ok (.int n, d), st) ∧ n.toInt = number (unread c) ∧
      Reads c tokens d ∧ tokens.map Token.toChar = sign (unread c) ++ digits (unread c)
  /-- Any other number is a failure. -/
  range : digits (unread c) ≠ [] →
    ¬(-2 ^ 63 ≤ number (unread c) ∧ number (unread c) ≤ 2 ^ 63 - 1) → ∀ st,
    ∃ e, p c st = some (.error e, st) ∧ e.message = "integer does not fit in 64 bits" ∧
      e.expected = ["integer"]
  /-- So is the lack of digits. -/
  noDigits : digits (unread c) = [] → ∀ st, ∃ e, p c st = some (.error e, st) ∧
    e.message = complaint (unsigned (unread c)) ∧ e.expected = ["digit", "integer"]
  failure : ∀ st e s, p c st = some (.error e, s) → e.remaining = c ∧ e.position = position c
  /-- An integer in decimal digits is read back, if no other digit follows. -/
  printed : ∀ (n : Int64) (suffix : List Char),
    unread c = (toString n.toInt).toList ++ suffix → (∀ x ∈ suffix.head?, ¬x.isDigit) → ∀ st,
    ∃ d, p c st = some (.ok (.int n, d), st) ∧ unread d = suffix

variable {c d : C}

theorem Reads.unread_eq {tokens : List τ} (h : Reads c tokens d) :
    unread c = tokens.map Token.toChar ++ unread d := by
  unfold unread
  rw [h.after_eq, map_append]

/-- A failure at the next token, or at the end. -/
theorem unfit_eq [LawfulInput C] (c : C) :
    (Parser.unfit c).message = complaint (unread c) ∧ (Parser.unfit c).expected = [] := by
  unfold Parser.unfit unread
  rcases uncons_cases c with ⟨hUncons, hAfter⟩ | ⟨token, d, hUncons, hAfter⟩
  · rw [hUncons, hAfter]
    exact ⟨rfl, rfl⟩
  · rw [hUncons, hAfter]
    exact ⟨rfl, rfl⟩

namespace Grammar

variable [ToValue τ] [ToValue σ] {call : Reference → Parser C Value} {a : Address}

omit [InputView C τ σ] in
/-- Once the sign is read, an integer is what its digits make of it. -/
theorem integer_eq {v : Value} {d : C}
    (hSign : sign.parser call (a.turn .left) c = stop (.ok (v, d))) :
    integer.parser call a c = followedBy (digits.parser call (a.turn .right) d) fun r =>
      stop (r.cases (fun e => .error ((e.moveTo c).expecting "integer")) fun w e =>
        .ofOption ((ParseError.new c .integerRange).expecting "integer") e
          (toInteger? (.pair v w))) := by
  have hBoth : (Grammar.both sign digits).parser call a = Parser.bind
      (sign.parser call (a.turn .left)) fun v =>
        Parser.map (Value.pair v) (digits.parser call (a.turn .right)) := Parser.map_both_eq _ _ _
  have hSigned : (Grammar.both sign digits).parser call a c =
      followedBy (digits.parser call (a.turn .right) d) fun r => stop (r.map (Value.pair v)) := by
    rw [hBoth, Parser.bind_eq, hSign]
    exact Parser.map_eq _ _
  have hParts : integer.parser call a = Parser.convert "integer" .integerRange toInteger?
      (.lexeme "integer" ((Grammar.both sign digits).parser call a)) := rfl
  rw [hParts, Parser.convert_eq, Parser.lexeme_eq, hSigned, followedBy_assoc, followedBy_assoc]
  congr 1
  funext r
  rcases r with e | ⟨w, e⟩ <;> rfl

variable [LawfulInput C]

/-- Digits are read up to the first token that is none, and there is at least one. -/
theorem digits_cases (call : Reference → Parser C Value) (a : Address) (c : C) :
    ((unread c).takeWhile Char.isDigit = [] ∧
      digits.parser call a c = stop (.error ((Parser.unfit c).expecting "digit"))) ∨
    ((unread c).takeWhile Char.isDigit ≠ [] ∧ ∃ tokens d, Reads c tokens d ∧
      tokens.map Token.toChar = (unread c).takeWhile Char.isDigit ∧
      digits.parser call a c = stop (.ok (.list (tokens.map ToValue.toValue), d))) := by
  have hTakes := takesOne_labelled (C := C) call "digit" Char.isDigit a
  have hMap : digits.parser call a c = followedBy (Parser.many1 (digit.parser call a) c)
    fun r => stop (Result.map Value.list r) := Parser.map_eq _ _
  have hDigits : (unread c).takeWhile Char.isDigit =
      ((after c).takeWhile (Char.isDigit ∘ Token.toChar)).map Token.toChar := takeWhile_map
  rw [hMap, hDigits, digit]
  rcases hTakes.many1 c with ⟨hNone, hRun⟩ | ⟨hSome, d, hReads, hRun⟩
  · rw [hNone, hRun]
    exact .inl ⟨rfl, rfl⟩
  · rw [hRun]
    exact .inr ⟨fun h => hSome (map_eq_nil_iff.mp h), _, d, hReads, rfl, rfl⟩

variable [LawfulToken τ]

/-- A sign is read if there is one, and otherwise nothing. -/
theorem sign_eq (call : Reference → Parser C Value) (a : Address) (c : C) :
    ∃ tokens d, Reads c tokens d ∧ tokens.map Token.toChar = IntegerText.sign (unread c) ∧
      sign.parser call a c = stop (.ok (.bool (IntegerText.sign (unread c) = ['-']), d)) := by
  have hTakes := (takesOne_labelled (C := C) call ("one of " ++ Quoted.text "+-")
    "+-".toList.contains a).map isMinus
  obtain ⟨d, hReads, hRun⟩ := hTakes.option (.bool false) c
  have hSign : IntegerText.sign (unread c) = ((after c).head?.filter
      ("+-".toList.contains ∘ Token.toChar)).toList.map Token.toChar := by
    rw [sign_eq_filter, unread, head?_map, Option.filter_map, Option.toList_map]
  refine ⟨_, d, hReads, hSign.symm, hRun.trans ?_⟩
  rw [hSign]
  rcases (after c).head?.filter ("+-".toList.contains ∘ Token.toChar) with _ | token
  · rfl
  · have hMinus : isMinus (ToValue.toValue token) = .bool ([Token.toChar token] = ['-']) := by
      unfold isMinus
      rw [LawfulToken.token?_toValue, Value.bool.injEq, Bool.eq_iff_iff]
      simp
    exact congrArg (fun v => stop (.ok (v, d))) hMinus

/-- The number that a sign and digits stand for, if it has 64 bits. -/
theorem toInteger?_eq {s : List Char} {tokens : List τ}
    (h : tokens.map Token.toChar = IntegerText.digits s) :
    toInteger? (.pair (.bool (IntegerText.sign s = ['-'])) (.list (tokens.map ToValue.toValue))) =
      (Numeral.fits? (IntegerText.number s)).map fun n => .int (.ofInt n) := by
  have hDigits : ∀ x ∈ IntegerText.digits s, x.isDigit := all_eq_true.mp all_takeWhile
  have hSigned : Numeral.signed (IntegerText.sign s = ['-'])
      (Nat.ofDigitChars 10 (IntegerText.digits s) 0) = IntegerText.number s := by
    unfold Numeral.signed IntegerText.number
    simp only [decide_eq_true_eq]
  unfold toInteger?
  simp only [digitsOf_toValue, h, Numeral.toInt64?_eq, Numeral.ofDigits_digitValue hDigits, hSigned,
    Option.map_map]
  rfl

/-- The run of an integer: a failure without digits, and otherwise the number that the sign
and the digits stand for, if it has 64 bits. -/
theorem integer_cases (call : Reference → Parser C Value) (a : Address) (c : C) :
    (IntegerText.digits (unread c) = [] ∧ ∃ d, unread d = IntegerText.unsigned (unread c) ∧
      integer.parser call a c =
        stop (.error ((((Parser.unfit d).expecting "digit").moveTo c).expecting "integer"))) ∨
    (IntegerText.digits (unread c) ≠ [] ∧ ∃ tokens d, Reads c tokens d ∧
      tokens.map Token.toChar = IntegerText.sign (unread c) ++ IntegerText.digits (unread c) ∧
      integer.parser call a c = stop (.ofOption
        ((ParseError.new c .integerRange).expecting "integer") d
        ((Numeral.fits? (IntegerText.number (unread c))).map fun n => .int (.ofInt n)))) := by
  obtain ⟨tokens, d, hReads, hSign, hSignRun⟩ := sign_eq call (a.turn .left) c
  have hUnsigned : IntegerText.unsigned (unread c) = unread d := by
    refine IntegerText.unsigned_eq ?_
    rw [← hSign, ← hReads.unread_eq]
  rw [integer_eq hSignRun, IntegerText.digits, hUnsigned]
  rcases digits_cases call (a.turn .right) d with
    ⟨hNone, hRun⟩ | ⟨hSome, more, e, hMore, hDigits, hRun⟩
  · rw [hRun]
    exact .inl ⟨hNone, d, rfl, rfl⟩
  · rw [hRun]
    refine .inr ⟨hSome, _, e, hReads.trans hMore, ?_, ?_⟩
    · rw [map_append, hSign, hDigits]
    · rw [stop_followedBy, Result.cases_ok, toInteger?_eq]
      rw [hDigits, IntegerText.digits, hUnsigned]

/-- A number of 64 bits is read. -/
theorem integer_eq_stop (call : Reference → Parser C Value) (a : Address)
    (hSome : IntegerText.digits (unread c) ≠ [])
    (hFits : -2 ^ 63 ≤ IntegerText.number (unread c) ∧
      IntegerText.number (unread c) ≤ 2 ^ 63 - 1) :
    ∃ n d tokens, integer.parser call a c = stop (.ok (.int n, d)) ∧
      n.toInt = IntegerText.number (unread c) ∧ Reads c tokens d ∧
      tokens.map Token.toChar =
        IntegerText.sign (unread c) ++ IntegerText.digits (unread c) := by
  rcases integer_cases call a c with ⟨hNone, -⟩ | ⟨-, tokens, d, hReads, hTokens, hRun⟩
  · exact absurd hNone hSome
  · have hValue := Int64.toInt_ofInt_of_le hFits.1 (Int.lt_of_le_sub_one hFits.2)
    rw [Numeral.fits?_eq, if_pos hFits] at hRun
    exact ⟨_, d, tokens, hRun, hValue, hReads, hTokens⟩

/-- An integer is read exactly at every cursor. -/
theorem readsInteger (call : Reference → Parser C Value) (a : Address) (c : C) :
    (integer.parser call a).ReadsInteger c where
  exact := by
    intro hSome hFits st
    obtain ⟨n, d, tokens, hRun, hRead⟩ := integer_eq_stop call a hSome hFits
    exact ⟨n, d, tokens, congrFun hRun st, hRead⟩
  range := by
    intro hSome hLarge st
    rcases integer_cases call a c with ⟨hNone, -⟩ | ⟨-, tokens, d, -, -, hRun⟩
    · exact absurd hNone hSome
    · rw [Numeral.fits?_eq, if_neg hLarge] at hRun
      exact ⟨_, congrFun hRun st, rfl, rfl⟩
  noDigits := by
    intro hNone st
    rcases integer_cases call a c with ⟨-, d, hUnsigned, hRun⟩ | ⟨hSome, -⟩
    · obtain ⟨hMessage, hExpected⟩ := unfit_eq d
      rw [← hUnsigned]
      exact ⟨_, congrFun hRun st, hMessage, congrArg (· ++ ["digit"] ++ ["integer"]) hExpected⟩
    · exact absurd hNone hSome
  failure := by
    intro st e s hFails
    rcases integer_cases call a c with ⟨-, d, -, hRun⟩ | ⟨-, tokens, d, -, -, hRun⟩
    · cases (congrFun hRun st).symm.trans hFails
      exact ⟨rfl, rfl⟩
    · rcases hFits : Numeral.fits? (IntegerText.number (unread c)) with _ | n
      · rw [hFits] at hRun
        cases (congrFun hRun st).symm.trans hFails
        exact ⟨rfl, rfl⟩
      · rw [hFits] at hRun
        cases (congrFun hRun st).symm.trans hFails
  printed := by
    intro n suffix hText hSuffix st
    have hNumber : IntegerText.number (unread c) = n.toInt :=
      hText ▸ number_toString hSuffix
    have hSome : IntegerText.digits (unread c) ≠ [] := by
      rw [hText, digits_toString hSuffix]
      exact Nat.toDigits_ne_nil
    have hFits := And.intro n.le_toInt (Int.le_sub_one_of_lt n.toInt_lt)
    rw [← hNumber] at hFits
    obtain ⟨m, d, tokens, hRun, hValue, hReads, hTokens⟩ := integer_eq_stop call a hSome hFits
    obtain rfl : m = n := Int64.toInt_inj.mp (hValue.trans hNumber)
    refine ⟨d, congrFun hRun st, ?_⟩
    have hUnread := hReads.unread_eq
    rw [hTokens, hText, sign_append_digits hSuffix] at hUnread
    exact (append_cancel_left hUnread).symm

/-- The least integer with one more character, and no integer at all. -/
theorem readsInteger_of_least :
    (∃ d, integer.parser (fun _ => .silent) .fresh
        (TextCursor.ofSource ⟨0, "-9223372036854775808x"⟩) {} =
      some (.ok (.int Int64.minValue, d), {}) ∧ unread d = ['x']) ∧
    ∃ e, integer.parser (fun _ => .silent) .fresh
        (SliceCursor.ofSource ⟨1, (#[43] : Array UInt8)⟩) {} = some (.error e, {}) ∧
      e.message = "unexpected end of input" ∧ e.expected = ["digit", "integer"] := by
  have hText : unread (TextCursor.ofSource ⟨0, "-9223372036854775808x"⟩) =
      (toString Int64.minValue.toInt).toList ++ ['x'] := by
    unfold unread
    rw [TextCursor.after_ofSource]
    decide
  have hSuffix : ∀ x ∈ ['x'].head?, ¬x.isDigit := by
    intro x hx
    cases hx
    decide
  exact ⟨(readsInteger _ _ _).printed Int64.minValue ['x'] hText hSuffix {},
    (readsInteger _ _ _).noDigits (by decide) {}⟩

end Grammar

end Packrat

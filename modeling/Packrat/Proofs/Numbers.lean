import Packrat.Proofs.Integers

/-!
# Numbers

A number is read greedily, and what a point or the marker of a power promises is mandatory.
From what comes after a cursor the sign, the digits, the fraction and the power of ten are
taken one after the other. If each of them has the digits that it must have, all of this is
read. Otherwise the whole number fails where it starts, and the failure complains about what
stands where the first missing digit should be; no shorter number is tried.

* `NumberText`: the parts of a number that some characters start with, whether they are
  complete, and where the first digit is missing;
* `Parser.Takes`, `Parser.Misses`: the two outcomes of a part, with one lemma for each way
  in which parts are put together;
* `Grammar.parts_cases`: the run of all the parts, by what comes after the cursor;
* `Grammar.number_cases`, `Grammar.readsNumber`: at every cursor a number is read so.
-/

namespace Packrat

open Input List

/-! ## Characters -/

namespace NumberText

/-- The first of some characters, if it passes a test. -/
def leading (test : Char → Bool) : List Char → List Char
  | [] => []
  | c :: _ => if test c then [c] else []

/-- What follows a first character that passes a test. -/
def behind (test : Char → Bool) : List Char → List Char
  | [] => []
  | c :: s => if test c then s else []

def isPoint (c : Char) : Bool :=
  c = '.'

def isMarker (c : Char) : Bool :=
  c = 'e' || c = 'E'

section

variable (s : List Char)

/-- What follows the sign and the digits. -/
def afterWhole : List Char :=
  s.drop (IntegerText.sign s ++ IntegerText.digits s).length

/-- The point after the digits, if there is one. -/
def point : List Char :=
  leading isPoint (afterWhole s)

/-- What follows the point, nothing without one. -/
def afterPoint : List Char :=
  behind isPoint (afterWhole s)

/-- The longest run of digits after the point. -/
def fraction : List Char :=
  (afterPoint s).takeWhile Char.isDigit

def afterFraction : List Char :=
  (afterWhole s).drop (point s ++ fraction s).length

/-- The marker of the power of ten, if there is one. -/
def marker : List Char :=
  leading isMarker (afterFraction s)

/-- What follows the marker, nothing without one. -/
def afterMarker : List Char :=
  behind isMarker (afterFraction s)

/-- The sign of the power, if it has one. -/
def powerSign : List Char :=
  IntegerText.sign (afterMarker s)

/-- The longest run of digits of the power. -/
def power : List Char :=
  IntegerText.digits (afterMarker s)

/-- All that belongs to the number. -/
def characters : List Char :=
  (IntegerText.sign s ++ IntegerText.digits s) ++ (point s ++ fraction s) ++
    (marker s ++ (powerSign s ++ power s))

/-- There are digits, also after a point and after a marker. -/
structure Complete : Prop where
  whole : IntegerText.digits s ≠ []
  fraction : point s ≠ [] → fraction s ≠ []
  power : marker s ≠ [] → power s ≠ []

/-- What stands in the first place where a digit is missing. -/
def gap : List Char :=
  if IntegerText.digits s = [] then IntegerText.unsigned s
  else if point s ≠ [] ∧ fraction s = [] then afterPoint s
  else IntegerText.unsigned (afterMarker s)

def negative : Bool :=
  IntegerText.sign s = ['-']

/-- Whether the power has a minus sign. -/
def down : Bool :=
  powerSign s = ['-']

/-- The digits after the point as a text, or a zero. -/
def fractionText : String :=
  if point s = [] then "0" else String.ofList (fraction s)

/-- The exponent that the power stands for, which is limited. -/
def exponent : Int32 :=
  Numeral.power (down s) ((power s).map Operation.digitValue)

/-- The number without its sign. -/
def magnitude : Binary64 :=
  Numeral.decimal (String.ofList (IntegerText.digits s)) (fractionText s) (exponent s)

def value : Binary64 :=
  if negative s then (magnitude s).negate else magnitude s

end

variable {test : Char → Bool} {s : List Char}

theorem leading_eq_nil (h : s.takeWhile test = []) : leading test s = [] := by
  cases s with
  | nil => rfl
  | cons c s =>
    have hTest : ¬test c := by
      intro hTest
      rw [takeWhile_cons_of_pos hTest] at h
      cases h
    exact if_neg hTest

/-- Nothing follows what is not there. -/
theorem behind_eq_nil (h : leading test s = []) : behind test s = [] := by
  cases s with
  | nil => rfl
  | cons c s =>
    have hTest : ¬test c := by
      intro hTest
      rw [leading, if_pos hTest] at h
      cases h
    exact if_neg hTest

/-- The fraction of a number without a point is empty. -/
theorem fraction_eq_nil (h : point s = []) : fraction s = [] := by
  rw [fraction, afterPoint, behind_eq_nil h]
  rfl

end NumberText

/-! ## Parts -/

open IntegerText Run

section

variable {C τ σ : Type} [Input C τ σ] [InputView C τ σ] [Token τ] {c d : C}

namespace Parser

/-- A parser takes some characters and yields a value with a property, in every state. -/
def Takes (p : Parser C Value) (c : C) (s : List Char) (P : Value → Prop) : Prop :=
  ∃ v tokens d, P v ∧ Reads c tokens d ∧ tokens.map Token.toChar = s ∧
    p c = stop (.ok (v, d))

/-- A parser misses a digit in front of some characters, in every state. -/
def Misses (p : Parser C Value) (c : C) (s : List Char) : Prop :=
  ∃ d, unread d = s ∧ p c = stop (.error ((unfit d).expecting "digit"))

variable {p : Parser C Value} {s : List Char} {P Q : Value → Prop}

theorem Takes.map (h : p.Takes c s P) {f : Value → Value} (hValue : ∀ v, P v → Q (f v)) :
    (p.map f).Takes c s Q := by
  obtain ⟨v, tokens, d, hv, hReads, hChars, hRun⟩ := h
  exact ⟨f v, tokens, d, hValue v hv, hReads, hChars, by rw [map_eq, hRun]; rfl⟩

theorem Misses.map (h : p.Misses c s) (f : Value → Value) : (p.map f).Misses c s := by
  obtain ⟨d, hUnread, hRun⟩ := h
  exact ⟨d, hUnread, by rw [map_eq, hRun]; rfl⟩

/-- What it is to read a number completely or not at all. The state is not heeded, and it
is not changed. -/
structure ReadsNumber (p : Parser C Value) (c : C) : Prop where
  /-- If there is no digit missing, all that belongs to the number is read. -/
  accepts : NumberText.Complete (unread c) → ∀ st, ∃ x d tokens,
    p c st = some (.ok (.float x, d), st) ∧ Reads c tokens d ∧
      tokens.map Token.toChar = NumberText.characters (unread c)
  /-- Otherwise the failure is that of the first place where one is missing, reported where
  the number starts. -/
  rejects : ¬NumberText.Complete (unread c) → ∀ st, ∃ e, p c st = some (.error e, st) ∧
    e.remaining = c ∧ e.position = position c ∧ e.expected = ["digit", "number"] ∧
      e.message = complaint (NumberText.gap (unread c))

end Parser

namespace Grammar

variable [ToValue τ] [ToValue σ] {call : Reference → Parser C Value} {a : Address}
  {g h : Grammar} {s t : List Char} {P Q R : Value → Prop}

omit [InputView C τ σ] in
theorem both_eq : (Grammar.both g h).parser call a c =
    followedBy (g.parser call (a.turn .left) c) (Result.cases (fun e => stop (.error e))
      fun v d => Parser.map (Value.pair v) (h.parser call (a.turn .right)) d) := by
  have hBoth : (Grammar.both g h).parser call a = Parser.bind
      (g.parser call (a.turn .left)) fun v =>
        Parser.map (Value.pair v) (h.parser call (a.turn .right)) := Parser.map_both_eq _ _ _
  rw [hBoth, Parser.bind_eq]

/-- The second part takes what it takes after what the first one has taken. -/
theorem takes_both (hFirst : (g.parser call (a.turn .left)).Takes c s P)
    (hSecond : ∀ d, unread d = (unread c).drop s.length →
      (h.parser call (a.turn .right)).Takes d t Q)
    (hPair : ∀ v w, P v → Q w → R (.pair v w)) :
    ((Grammar.both g h).parser call a).Takes c (s ++ t) R := by
  obtain ⟨v, tokens, d, hv, hReads, rfl, hRun⟩ := hFirst
  have hUnread : unread d = (unread c).drop (tokens.map Token.toChar).length := by
    rw [hReads.unread_eq, drop_left]
  obtain ⟨w, more, e, hw, hMore, rfl, hNext⟩ := (hSecond d hUnread).map (hPair v · hv)
  refine ⟨w, tokens ++ more, e, hw, hReads.trans hMore, map_append, ?_⟩
  rw [both_eq, hRun]
  exact hNext

theorem misses_both_left (hFirst : (g.parser call (a.turn .left)).Misses c s) (h : Grammar) :
    ((Grammar.both g h).parser call a).Misses c s := by
  obtain ⟨d, hUnread, hRun⟩ := hFirst
  exact ⟨d, hUnread, by rw [both_eq, hRun]; rfl⟩

theorem misses_both_right (hFirst : (g.parser call (a.turn .left)).Takes c s P)
    (hSecond : ∀ d, unread d = (unread c).drop s.length →
      (h.parser call (a.turn .right)).Misses d t) :
    ((Grammar.both g h).parser call a).Misses c t := by
  obtain ⟨v, tokens, d, -, hReads, rfl, hRun⟩ := hFirst
  have hUnread : unread d = (unread c).drop (tokens.map Token.toChar).length := by
    rw [hReads.unread_eq, drop_left]
  obtain ⟨e, hMissing, hNext⟩ := (hSecond d hUnread).map (Value.pair v)
  refine ⟨e, hMissing, ?_⟩
  rw [both_eq, hRun]
  exact hNext

/-! ### Markers -/

section

variable [LawfulInput C] {name : String} {test : Char → Bool} {default : Value} {body : Grammar}

/-- A marker is there and followed by what must follow it, or it is not there. -/
theorem marked_cases (call : Reference → Parser C Value) (a : Address) (c : C)
    (name : String) (test : Char → Bool) (default : Value) (body : Grammar) :
    (NumberText.leading test (unread c) = [] ∧
      (Grammar.marked default (labelled name test) body).parser call a c =
        stop (.ok (default, c))) ∨
    (∃ token d, Reads c [token] d ∧
      NumberText.leading test (unread c) = [Token.toChar token] ∧
      NumberText.behind test (unread c) = unread d ∧
      (Grammar.marked default (labelled name test) body).parser call a c =
        body.parser call (a.turn .right) d) := by
  have hMarked : (Grammar.marked default (labelled name test) body).parser call a c =
      followedBy ((labelled name test).parser call (a.turn .left) c)
        (Result.cases (fun _ => stop (.ok (default, c))) fun _ d =>
          body.parser call (a.turn .right) d) := Parser.marked_eq _ _ _
  rcases takesOne_labelled call name test (a.turn .left) c with
    ⟨token, d, hTest, hReads, hRun⟩ | ⟨hNone, hRun⟩
  · have hUnread : unread c = Token.toChar token :: unread d := hReads.unread_eq
    rw [hRun] at hMarked
    rw [hUnread]
    exact .inr ⟨token, d, hReads, if_pos hTest, if_pos hTest, hMarked⟩
  · have hMap : (unread c).takeWhile test =
        ((after c).takeWhile (test ∘ Token.toChar)).map Token.toChar := takeWhile_map
    rw [hNone] at hMap
    rw [hRun] at hMarked
    exact .inl ⟨NumberText.leading_eq_nil hMap, hMarked⟩

/-- What follows a marker is taken with it. -/
theorem takes_marked (hSome : NumberText.leading test (unread c) ≠ [])
    (hBody : ∀ d, unread d = NumberText.behind test (unread c) →
      (body.parser call (a.turn .right)).Takes d s P) :
    ((Grammar.marked default (labelled name test) body).parser call a).Takes c
      (NumberText.leading test (unread c) ++ s) P := by
  rcases marked_cases call a c name test default body with
    ⟨hNone, -⟩ | ⟨token, d, hReads, hLeading, hBehind, hRun⟩
  · exact absurd hNone hSome
  · obtain ⟨v, more, e, hv, hMore, rfl, hNext⟩ := hBody d hBehind.symm
    rw [hLeading]
    exact ⟨v, _, e, hv, hReads.trans hMore, map_append, hRun.trans hNext⟩

/-- What is missing after a marker is missing. -/
theorem misses_marked (hSome : NumberText.leading test (unread c) ≠ [])
    (hBody : ∀ d, unread d = NumberText.behind test (unread c) →
      (body.parser call (a.turn .right)).Misses d s) :
    ((Grammar.marked default (labelled name test) body).parser call a).Misses c s := by
  rcases marked_cases call a c name test default body with
    ⟨hNone, -⟩ | ⟨token, d, hReads, hLeading, hBehind, hRun⟩
  · exact absurd hNone hSome
  · obtain ⟨e, hUnread, hNext⟩ := hBody d hBehind.symm
    exact ⟨e, hUnread, hRun.trans hNext⟩

/-- Without a marker the value is the default, and nothing is taken. -/
theorem takes_unmarked (hNone : NumberText.leading test (unread c) = []) (hDefault : P default) :
    ((Grammar.marked default (labelled name test) body).parser call a).Takes c [] P := by
  rcases marked_cases call a c name test default body with
    ⟨-, hRun⟩ | ⟨token, d, -, hLeading, -⟩
  · exact ⟨default, [], c, hDefault, .refl c, rfl, hRun⟩
  · rw [hNone] at hLeading
    cases hLeading

end

/-! ### Digits -/

variable [LawfulInput C] [LawfulToken τ]

/-- The value of digits: the text and the numbers that they stand for. -/
structure DigitsOf (s : List Char) (v : Value) : Prop where
  textOf_eq : textOf v = .text (String.ofList s)
  digitsOf_eq : digitsOf v = s.map Operation.digitValue

theorem takes_digits (hUnread : unread c = s) (hSome : s.takeWhile Char.isDigit ≠ []) :
    (digits.parser call a).Takes c (s.takeWhile Char.isDigit)
      (DigitsOf (s.takeWhile Char.isDigit)) := by
  subst hUnread
  rcases digits_cases call a c with ⟨hNone, -⟩ | ⟨-, tokens, d, hReads, hDigits, hRun⟩
  · exact absurd hNone hSome
  · have hAll : ∀ x ∈ tokens, (Token.toChar x).isDigit := by
      intro x hx
      have hMem : Token.toChar x ∈ (unread c).takeWhile Char.isDigit :=
        hDigits ▸ mem_map_of_mem hx
      exact all_eq_true.mp all_takeWhile _ hMem
    have hText := LawfulToken.textOf_digits hAll
    have hNumbers := digitsOf_toValue tokens
    rw [hDigits] at hText hNumbers
    exact ⟨_, tokens, d, ⟨hText, hNumbers⟩, hReads, hDigits, hRun⟩

theorem takes_digitText (hUnread : unread c = s) (hSome : s.takeWhile Char.isDigit ≠ []) :
    (digitText.parser call a).Takes c (s.takeWhile Char.isDigit)
      (· = .text (String.ofList (s.takeWhile Char.isDigit))) :=
  (takes_digits hUnread hSome).map fun _ => DigitsOf.textOf_eq

omit [LawfulToken τ] in
theorem misses_digits (hUnread : unread c = s) (hNone : s.takeWhile Char.isDigit = []) :
    (digits.parser call a).Misses c s := by
  subst hUnread
  rcases digits_cases call a c with ⟨-, hRun⟩ | ⟨hSome, -⟩
  · exact ⟨c, rfl, hRun⟩
  · exact absurd hNone hSome

omit [LawfulToken τ] in
theorem misses_digitText (hUnread : unread c = s) (hNone : s.takeWhile Char.isDigit = []) :
    (digitText.parser call a).Misses c s :=
  (misses_digits hUnread hNone).map textOf

theorem takes_sign (hUnread : unread c = s) : (sign.parser call a).Takes c (IntegerText.sign s)
    (· = .bool (IntegerText.sign s = ['-'])) := by
  subst hUnread
  obtain ⟨tokens, d, hReads, hSign, hRun⟩ := sign_eq call a c
  exact ⟨_, tokens, d, rfl, hReads, hSign, hRun⟩

/-! ### Numbers -/

theorem takes_whole (hUnread : unread c = s) (hSome : IntegerText.digits s ≠ []) :
    ((Grammar.both sign digitText).parser call a).Takes c
      (IntegerText.sign s ++ IntegerText.digits s)
      (· = .pair (.bool (NumberText.negative s))
        (.text (String.ofList (IntegerText.digits s)))) := by
  subst hUnread
  refine takes_both (takes_sign rfl) (fun d hUnread => takes_digitText hUnread hSome) ?_
  rintro v w rfl rfl
  rfl

theorem misses_whole (hUnread : unread c = s) (hNone : IntegerText.digits s = []) :
    ((Grammar.both sign digitText).parser call a).Misses c (IntegerText.unsigned s) := by
  subst hUnread
  exact misses_both_right (takes_sign rfl) fun d hUnread => misses_digitText hUnread hNone

theorem takes_fraction (hUnread : unread c = NumberText.afterWhole s)
    (hComplete : NumberText.point s ≠ [] → NumberText.fraction s ≠ []) :
    (fraction.parser call a).Takes c (NumberText.point s ++ NumberText.fraction s)
      (· = .text (NumberText.fractionText s)) := by
  have hLeading : NumberText.leading NumberText.isPoint (unread c) = NumberText.point s := by
    rw [hUnread]
    rfl
  unfold NumberText.fractionText
  by_cases hPoint : NumberText.point s = []
  · rw [if_pos hPoint, hPoint, NumberText.fraction_eq_nil hPoint]
    exact takes_unmarked (hLeading.trans hPoint) rfl
  · rw [if_neg hPoint, ← hLeading]
    refine takes_marked (hLeading ▸ hPoint) fun d hBehind => ?_
    rw [hUnread] at hBehind
    exact takes_digitText hBehind (hComplete hPoint)

omit [LawfulToken τ] in
theorem misses_fraction (hUnread : unread c = NumberText.afterWhole s)
    (hPoint : NumberText.point s ≠ []) (hNone : NumberText.fraction s = []) :
    (fraction.parser call a).Misses c (NumberText.afterPoint s) := by
  have hSome : NumberText.leading NumberText.isPoint (unread c) ≠ [] := by
    rw [hUnread]
    exact hPoint
  refine misses_marked hSome fun d hBehind => ?_
  rw [hUnread] at hBehind
  exact misses_digitText hBehind hNone

/-- The marker is one of two letters. -/
theorem exponent_eq : exponent = .marked (.pair (.bool false) (.list []))
    (labelled ("one of " ++ Quoted.text "eE") NumberText.isMarker) (.both sign digits) := by
  have hTest : "eE".toList.contains = NumberText.isMarker := by
    ext c
    simp [NumberText.isMarker]
  rw [← hTest]
  rfl

theorem takes_exponent (hUnread : unread c = NumberText.afterFraction s)
    (hComplete : NumberText.marker s ≠ [] → NumberText.power s ≠ []) :
    (exponent.parser call a).Takes c
      (NumberText.marker s ++ (NumberText.powerSign s ++ NumberText.power s))
      (fun v => ∃ ds, v = .pair (.bool (NumberText.down s)) ds ∧
        digitsOf ds = (NumberText.power s).map Operation.digitValue) := by
  have hLeading : NumberText.leading NumberText.isMarker (unread c) = NumberText.marker s := by
    rw [hUnread]
    rfl
  rw [exponent_eq]
  by_cases hMarker : NumberText.marker s = []
  · have hBehind : NumberText.afterMarker s = [] := NumberText.behind_eq_nil hMarker
    unfold NumberText.down NumberText.powerSign NumberText.power
    rw [hMarker, hBehind]
    exact takes_unmarked (hLeading.trans hMarker) ⟨.list [], rfl, rfl⟩
  · rw [← hLeading]
    refine takes_marked (hLeading ▸ hMarker) fun d hBehind => ?_
    rw [hUnread] at hBehind
    refine takes_both (takes_sign hBehind) (fun e hSigned => takes_digits
      (hSigned.trans (congrArg _ hBehind)) (hComplete hMarker)) ?_
    rintro v w rfl hw
    exact ⟨w, rfl, hw.digitsOf_eq⟩

theorem misses_exponent (hUnread : unread c = NumberText.afterFraction s)
    (hMarker : NumberText.marker s ≠ []) (hNone : NumberText.power s = []) :
    (exponent.parser call a).Misses c (IntegerText.unsigned (NumberText.afterMarker s)) := by
  have hSome : NumberText.leading NumberText.isMarker (unread c) ≠ [] := by
    rw [hUnread]
    exact hMarker
  rw [exponent_eq]
  refine misses_marked hSome fun d hBehind => ?_
  rw [hUnread] at hBehind
  refine misses_both_right (takes_sign hBehind) fun e hSigned => ?_
  rw [hBehind] at hSigned
  exact misses_digits hSigned hNone

/-- The sign, the digits and the fraction. -/
theorem takes_mantissa (call : Reference → Parser C Value) (a : Address)
    (hWhole : IntegerText.digits (unread c) ≠ [])
    (hFraction : NumberText.point (unread c) ≠ [] → NumberText.fraction (unread c) ≠ []) :
    ((Grammar.both (.both sign digitText) fraction).parser call a).Takes c
      (IntegerText.sign (unread c) ++ IntegerText.digits (unread c) ++
        (NumberText.point (unread c) ++ NumberText.fraction (unread c)))
      (· = .pair (.pair (.bool (NumberText.negative (unread c)))
        (.text (String.ofList (IntegerText.digits (unread c)))))
        (.text (NumberText.fractionText (unread c)))) := by
  refine takes_both (takes_whole rfl hWhole)
    (fun d hUnread => takes_fraction hUnread hFraction) ?_
  rintro v w rfl rfl
  rfl

/-- What follows the mantissa. -/
theorem afterFraction_eq (s : List Char) : NumberText.afterFraction s =
    s.drop (IntegerText.sign s ++ IntegerText.digits s ++
      (NumberText.point s ++ NumberText.fraction s)).length := by
  unfold NumberText.afterFraction NumberText.afterWhole
  rw [drop_drop, ← length_append]

omit [InputView C τ σ] [Token τ] [ToValue τ] [ToValue σ] [LawfulInput C] [LawfulToken τ] in
/-- The parts of a number are made into its value. -/
theorem toNumber_eq {ds : Value}
    (hDigits : digitsOf ds = (NumberText.power s).map Operation.digitValue) :
    toNumber (.pair (.pair (.pair (.bool (NumberText.negative s))
      (.text (String.ofList (IntegerText.digits s)))) (.text (NumberText.fractionText s)))
      (.pair (.bool (NumberText.down s)) ds)) = .float (NumberText.value s) := by
  simp only [toNumber, hDigits]
  rfl

/-- All the parts of a number, or the first place where a digit is missing. -/
theorem parts_cases (call : Reference → Parser C Value) (a : Address) (c : C) :
    (NumberText.Complete (unread c) ∧
      ((Grammar.both (.both (.both sign digitText) fraction) exponent).parser call a).Takes c
        (NumberText.characters (unread c))
        (toNumber · = .float (NumberText.value (unread c)))) ∨
    (¬NumberText.Complete (unread c) ∧
      ((Grammar.both (.both (.both sign digitText) fraction) exponent).parser call a).Misses c
        (NumberText.gap (unread c))) := by
  unfold NumberText.gap
  by_cases hWhole : IntegerText.digits (unread c) = []
  · rw [if_pos hWhole]
    exact .inr ⟨fun h => h.whole hWhole,
      misses_both_left (misses_both_left (misses_whole rfl hWhole) _) _⟩
  rw [if_neg hWhole]
  by_cases hFraction : NumberText.point (unread c) ≠ [] ∧ NumberText.fraction (unread c) = []
  · obtain ⟨hPoint, hNone⟩ := hFraction
    rw [if_pos ⟨hPoint, hNone⟩]
    refine .inr ⟨fun h => h.fraction hPoint hNone, misses_both_left ?_ _⟩
    exact misses_both_right (takes_whole rfl hWhole)
      fun d hUnread => misses_fraction hUnread hPoint hNone
  rw [if_neg hFraction]
  have hMantissa := takes_mantissa call (a.turn .left) hWhole
    fun hPoint hNone => hFraction ⟨hPoint, hNone⟩
  by_cases hPower : NumberText.marker (unread c) ≠ [] ∧ NumberText.power (unread c) = []
  · obtain ⟨hMarker, hNone⟩ := hPower
    refine .inr ⟨fun h => h.power hMarker hNone, ?_⟩
    refine misses_both_right hMantissa fun d hUnread => ?_
    rw [← afterFraction_eq] at hUnread
    exact misses_exponent hUnread hMarker hNone
  · have hComplete : NumberText.Complete (unread c) :=
      ⟨hWhole, fun hPoint hNone => hFraction ⟨hPoint, hNone⟩,
        fun hMarker hNone => hPower ⟨hMarker, hNone⟩⟩
    refine .inl ⟨hComplete, takes_both hMantissa (fun d hUnread => takes_exponent
      (hUnread.trans (afterFraction_eq _).symm) hComplete.power) ?_⟩
    rintro v w rfl ⟨ds, rfl, hDigits⟩
    exact toNumber_eq hDigits

/-- The run of a number: all its parts, or a failure where it starts. -/
theorem number_cases (call : Reference → Parser C Value) (a : Address) (c : C) :
    (NumberText.Complete (unread c) ∧ ∃ tokens d, Reads c tokens d ∧
      tokens.map Token.toChar = NumberText.characters (unread c) ∧
      number.parser call a c = stop (.ok (.float (NumberText.value (unread c)), d))) ∨
    (¬NumberText.Complete (unread c) ∧ ∃ d, unread d = NumberText.gap (unread c) ∧
      number.parser call a c =
        stop (.error ((((Parser.unfit d).expecting "digit").moveTo c).expecting "number"))) := by
  have hNumber : number.parser call a = Parser.lexeme "number" (Parser.map toNumber
      ((Grammar.both (.both (.both sign digitText) fraction) exponent).parser call a)) := rfl
  rw [hNumber, Parser.lexeme_eq]
  rcases parts_cases call a c with ⟨hComplete, hTakes⟩ | ⟨hComplete, hMisses⟩
  · obtain ⟨v, tokens, d, hv, hReads, hChars, hRun⟩ := hTakes
    rw [Parser.map_eq, hRun, ← hv]
    exact .inl ⟨hComplete, tokens, d, hReads, hChars, rfl⟩
  · obtain ⟨d, hGap, hRun⟩ := hMisses.map toNumber
    rw [hRun]
    exact .inr ⟨hComplete, d, hGap, rfl⟩

/-- A number is read completely or not at all, at every cursor. -/
theorem readsNumber (call : Reference → Parser C Value) (a : Address) (c : C) :
    (number.parser call a).ReadsNumber c where
  accepts := by
    intro hComplete st
    rcases number_cases call a c with ⟨-, tokens, d, hReads, hChars, hRun⟩ | ⟨hNot, -⟩
    · exact ⟨_, d, tokens, congrFun hRun st, hReads, hChars⟩
    · exact absurd hComplete hNot
  rejects := by
    intro hNot st
    rcases number_cases call a c with ⟨hComplete, -⟩ | ⟨-, d, hGap, hRun⟩
    · exact absurd hComplete hNot
    · obtain ⟨hMessage, hExpected⟩ := unfit_eq d
      rw [← hGap]
      exact ⟨_, congrFun hRun st, rfl, rfl, congrArg (· ++ ["digit"] ++ ["number"]) hExpected,
        hMessage⟩

end Grammar

end

/-- A number with all its parts and a letter behind it, and one that lacks the digits after
its point, although there is a number before the point. -/
theorem Grammar.readsNumber_of_parts :
    (∃ x d tokens, number.parser (fun _ => .silent) .fresh
        (TextCursor.ofSource ⟨0, "-12.5e-1x"⟩) {} = some (.ok (.float x, d), {}) ∧
      Reads (TextCursor.ofSource ⟨0, "-12.5e-1x"⟩) tokens d ∧
      tokens.map Token.toChar = "-12.5e-1".toList) ∧
    ∃ e, number.parser (fun _ => .silent) .fresh
        (SliceCursor.ofSource ⟨1, (#[49, 46, 101, 53] : Array UInt8)⟩) {} =
          some (.error e, {}) ∧
      e.remaining = SliceCursor.ofSource ⟨1, (#[49, 46, 101, 53] : Array UInt8)⟩ ∧
      e.position = 0 ∧ e.expected = ["digit", "number"] ∧ e.message = "unexpected 'e'" := by
  have hText : unread (TextCursor.ofSource ⟨0, "-12.5e-1x"⟩) = "-12.5e-1x".toList := by
    unfold unread
    rw [TextCursor.after_ofSource]
    exact map_id _
  have hComplete : NumberText.Complete "-12.5e-1x".toList :=
    ⟨by decide, fun _ => by decide, fun _ => by decide⟩
  have hAccepts := (readsNumber (fun _ => .silent) .fresh
    (TextCursor.ofSource ⟨0, "-12.5e-1x"⟩)).accepts
  rw [hText] at hAccepts
  have hBytes : unread (SliceCursor.ofSource ⟨1, (#[49, 46, 101, 53] : Array UInt8)⟩) =
      "1.e5".toList := by decide
  have hRejects := (readsNumber (fun _ => .silent) .fresh
    (SliceCursor.ofSource ⟨1, (#[49, 46, 101, 53] : Array UInt8)⟩)).rejects
  rw [hBytes] at hRejects
  exact ⟨hAccepts hComplete {}, hRejects (fun h => h.fraction (by decide) (by decide)) {}⟩

end Packrat

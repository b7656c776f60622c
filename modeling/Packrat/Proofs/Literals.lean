import Packrat.Proofs.Cursors
import Packrat.Proofs.Integers
import Packrat.Text.Quoted.Lemmas

/-!
# Literals

A literal is read if and only if the characters that are still to be read begin with it, and
then it reads these and nothing else, as its characters do one after the other. Otherwise it
reads nothing, and its failure names the first character that is not there.

* `Parser.EndsAt`: where a parser that succeeds leaves the cursor;
* `FirstMismatch`, `Parser.firstMismatch_of_matchAll`: the first place where some characters do
  not go on as wanted, and that it is the one that is named;
* `Grammar.Spells`: a grammar that reads the given characters and no others, which two such
  grammars one after the other do;
* `Grammar.LiteralExact`: what it is to read a literal exactly;
* `Grammar.literalExact`: at every cursor every literal is read exactly.
-/

namespace Packrat

open Input List

/-! ## The first mismatch -/

/-- The first place where some characters do not go on as wanted: up to it each one is as
wanted, and there stands another one, or none. -/
structure FirstMismatch (same : Char → Char → Bool) (wanted text : List Char) (k : Nat)
    (x : Char) : Prop where
  wanted_eq : wanted[k]? = some x
  agrees : ∀ j < k, ∃ y z, text[j]? = some y ∧ wanted[j]? = some z ∧ same y z
  differs : ∀ y ∈ text[k]?, ¬same y x

namespace FirstMismatch

variable {same : Char → Char → Bool} {wanted text : List Char} {k : Nat} {x y z : Char}

theorem zero (h : ∀ y ∈ text.head?, ¬same y x) : FirstMismatch same (x :: wanted) text 0 x where
  wanted_eq := rfl
  agrees j hLt := absurd hLt (Nat.not_lt_zero j)
  differs y hMem := h y (head?_eq_getElem? ▸ hMem)

theorem succ (h : FirstMismatch same wanted text k x) (hSame : same y z) :
    FirstMismatch same (z :: wanted) (y :: text) (k + 1) x where
  wanted_eq := h.wanted_eq
  agrees
    | 0, _ => ⟨y, z, rfl, rfl, hSame⟩
    | j + 1, hLt => h.agrees j (Nat.lt_of_succ_lt_succ hLt)
  differs := h.differs

end FirstMismatch

/-! ## Where a parser ends -/

namespace Parser

variable {C α β γ : Type} {p : Parser C α} {q : Parser C β} {c d : C} {st : State C}

/-- A parser succeeds from a cursor, whatever its value is, and leaves another cursor. -/
def EndsAt (p : Parser C α) (c : C) (st : State C) (d : C) : Prop :=
  ∃ v s, p c st = some (.ok (v, d), s)

theorem endsAt_iff_of_ok {v : α} {e : C} (h : p c = Run.stop (.ok (v, e))) :
    p.EndsAt c st d ↔ d = e := by
  constructor
  · rintro ⟨w, s, hRun⟩
    cases (congrFun h st).symm.trans hRun
    rfl
  · rintro rfl
    exact ⟨v, st, congrFun h st⟩

theorem not_endsAt_of_error {e : ParseError C} (h : p c = Run.stop (.error e)) :
    ¬p.EndsAt c st d := by
  rintro ⟨v, s, hRun⟩
  cases (congrFun h st).symm.trans hRun

theorem endsAt_map_iff (f : α → γ) : (map f p).EndsAt c st d ↔ p.EndsAt c st d := by
  unfold EndsAt
  simp only [map_eq, Run.followedBy_eq_some_iff]
  constructor
  · rintro ⟨w, s, _ | ⟨v, e⟩, t, hRun, hEnd⟩
    · cases hEnd
    · cases hEnd
      exact ⟨v, s, hRun⟩
  · rintro ⟨v, s, hRun⟩
    exact ⟨f v, s, _, s, hRun, rfl⟩

theorem endsAt_both_iff : (both p q).EndsAt c st d ↔
    ∃ v e s, p c st = some (.ok (v, e), s) ∧ q.EndsAt e s d := by
  constructor
  · rintro ⟨⟨v, w⟩, t, hRun⟩
    unfold both at hRun
    rcases hFirst : p c st with _ | ⟨_ | ⟨v, e⟩, s⟩ <;> rw [hFirst] at hRun
    · cases hRun
    · cases hRun
    · dsimp only at hRun
      rcases hSecond : q e s with _ | ⟨_ | ⟨w, d⟩, t⟩ <;> rw [hSecond] at hRun <;> cases hRun
      exact ⟨v, e, s, rfl, w, t, hSecond⟩
  · rintro ⟨v, e, s, hFirst, w, t, hSecond⟩
    refine ⟨(v, w), t, ?_⟩
    unfold both
    simp only [hFirst, hSecond]

end Parser

/-! ## The comparison -/

variable {C τ σ : Type} [Input C τ σ] [InputView C τ σ] [Token τ]

section

variable [LawfulInput C] {c d e : C} {token : τ} {tokens : List τ}

/-- Between two parts of what is read there is a cursor. -/
theorem Reads.exists_middle {s t : List τ} (h : Reads c (s ++ t) d) :
    ∃ e, Reads c s e ∧ Reads e t d := by
  have hAfter := h.after_eq
  have hLength : s.length ≤ (after c).length := by
    rw [hAfter, append_assoc, length_append]
    exact Nat.le_add_right _ _
  obtain ⟨e, -, hFirst⟩ := LawfulInput.splitAt_eq_some hLength
  rw [hAfter, append_assoc, take_left] at hFirst
  exact ⟨e, hFirst, hFirst.of_append h⟩

/-- Tokens with some characters can be read if what is unread begins with these. -/
theorem exists_reads_iff {s : List Char} :
    (∃ d tokens, Reads c tokens d ∧ tokens.map Token.toChar = s) ↔ s <+: unread c := by
  constructor
  · rintro ⟨d, tokens, hReads, rfl⟩
    exact hReads.unread_eq ▸ prefix_append _ _
  · intro hPrefix
    have hLength : s.length ≤ (after c).length := by
      simpa only [unread, length_map] using hPrefix.length_le
    obtain ⟨d, -, hReads⟩ := LawfulInput.splitAt_eq_some hLength
    exact ⟨d, _, hReads, map_take.trans (prefix_iff_eq_take.mp hPrefix).symm⟩

namespace Parser

variable {same : Char → Char → Bool} {wanted : List Char} {x : Char}

omit [InputView C τ σ] [LawfulInput C] in
theorem matchAll_end (h : uncons c = none) :
    matchAll same (x :: wanted) c = .error (x, none) := by
  rw [matchAll, h]

omit [InputView C τ σ] [LawfulInput C] in
theorem matchAll_next (h : uncons c = some (token, e)) : matchAll same (x :: wanted) c =
    if same (Token.toChar token) x then matchAll same wanted e
    else .error (x, some (Token.toChar token)) := by
  rw [matchAll, h]

/-- Where the comparison fails there is a first mismatch, and it is the one that is named. -/
theorem firstMismatch_of_matchAll {found : Option Char}
    (h : matchAll same wanted c = .error (x, found)) :
    ∃ k, FirstMismatch same wanted (unread c) k x ∧ found = (unread c)[k]? := by
  induction wanted generalizing c with
  | nil => cases h
  | cons z wanted ih =>
    rcases hUncons : uncons c with _ | ⟨next, rest⟩
    · rw [matchAll_end hUncons] at h
      cases h
      have hEnd : unread c = [] := by rw [unread, after_eq_nil_of_uncons hUncons, map_nil]
      rw [hEnd]
      exact ⟨0, .zero (fun y hMem => by cases hMem), rfl⟩
    · rw [matchAll_next hUncons] at h
      have hMore : unread c = Token.toChar next :: unread rest :=
        (reads_of_uncons hUncons).unread_eq
      rw [hMore]
      split at h
      · rename_i hSame
        obtain ⟨k, hMismatch, hFound⟩ := ih h
        exact ⟨k + 1, hMismatch.succ hSame, hFound⟩
      · rename_i hDiffer
        cases h
        refine ⟨0, .zero ?_, rfl⟩
        rintro y ⟨⟩
        exact hDiffer

end Parser

end

/-! ## Grammars -/

namespace Grammar

variable [ToValue τ] [ToValue σ] {call : Reference → Parser C Value} {g h : Grammar}
  {s t : List Char} {c : C}

/-- A grammar that reads the given characters and no others, whatever its value is. -/
def Spells (call : Reference → Parser C Value) (g : Grammar) (s : List Char) : Prop :=
  ∀ a c st d, (g.parser call a).EndsAt c st d ↔
    ∃ tokens, Reads c tokens d ∧ tokens.map Token.toChar = s

/-- Characters one after the other, each one a grammar of its own. -/
def oneByOne : List Char → Grammar
  | [] => .pure .unit
  | x :: more => sequence (char x) (more.map char)

/-- The words for what stands where a character of a literal is missing. -/
def inItsPlace : Option Char → String
  | some found => ", found " ++ Quoted.char found ++ " while matching "
  | none => ", but reached end of input while matching "

/-- What it is to read a literal exactly at a cursor. The state is not heeded, and it is not
changed. -/
structure LiteralExact (call : Reference → Parser C Value) (a : Address) (s : String) (c : C) :
    Prop where
  /-- It succeeds where the characters still to be read begin with it. -/
  succeeds_iff : ∀ st, (∃ d, ((literal s).parser call a).EndsAt c st d) ↔ s.toList <+: unread c
  /-- Then its characters are read. -/
  success : ∀ st v d st', (literal s).parser call a c st = some (.ok (v, d), st') →
    v = .text s ∧ st' = st ∧ ∃ tokens, Reads c tokens d ∧ tokens.map Token.toChar = s.toList
  /-- So they are one by one. -/
  oneByOne : ∀ a' st d, ((literal s).parser call a).EndsAt c st d ↔
    ((oneByOne s.toList).parser call a').EndsAt c st d
  /-- Otherwise nothing is read, and the first character that is missing is named. -/
  failure : ¬s.toList <+: unread c → ∃ k x, FirstMismatch (· == ·) s.toList (unread c) k x ∧
    ∃ e : ParseError C, e.remaining = c ∧ e.position = position c ∧
      e.expected = [Quoted.text s] ∧
      e.message = "expected " ++ Quoted.char x ++ inItsPlace (unread c)[k]? ++ Quoted.text s ∧
      ∀ st, (literal s).parser call a c st = some (.error e, st)
  /-- A literal in two parts is the one part and then the other one. -/
  append : ∀ t a' a'' st d, ((literal (s ++ t)).parser call a').EndsAt c st d ↔
    ((both (literal s) (literal t)).parser call a'').EndsAt c st d

theorem message_mismatch (x : Char) (found : Option Char) (s : String) :
    Reason.message (.mismatch x found s) =
      "expected " ++ Quoted.char x ++ inItsPlace found ++ Quoted.text s := by
  rcases found with _ | y
  · rfl
  · simp only [Reason.message, inItsPlace, String.append_assoc]

variable [LawfulInput C]

theorem Spells.both (hFirst : Spells call g s) (hSecond : Spells call h t) :
    Spells call (.both g h) (s ++ t) := by
  intro a c st d
  refine (Parser.endsAt_map_iff _).trans (Parser.endsAt_both_iff.trans ⟨?_, ?_⟩)
  · rintro ⟨v, e, st', hRun, hEnd⟩
    obtain ⟨read, hReads, rfl⟩ := (hFirst _ _ _ _).mp ⟨v, st', hRun⟩
    obtain ⟨more, hMore, rfl⟩ := (hSecond _ _ _ _).mp hEnd
    exact ⟨read ++ more, hReads.trans hMore, map_append⟩
  · rintro ⟨tokens, hReads, hTokens⟩
    obtain ⟨read, more, rfl, rfl, rfl⟩ := map_eq_append_iff.mp hTokens
    obtain ⟨e, hRead, hMore⟩ := hReads.exists_middle
    obtain ⟨v, st', hRun⟩ := (hFirst (a.turn .left) c st e).mpr ⟨read, hRead, rfl⟩
    exact ⟨v, e, st', hRun, (hSecond _ _ _ _).mpr ⟨more, hMore, rfl⟩⟩

/-- A grammar spells some characters if it reads them wherever they are to be read, and fails
elsewhere. -/
theorem spells_of_cases (h : ∀ a c,
    (∃ tokens d v, Reads c tokens d ∧ tokens.map Token.toChar = s ∧
      g.parser call a c = Run.stop (.ok (v, d))) ∨
    (¬s <+: unread c ∧ ∃ e, g.parser call a c = Run.stop (.error e))) : Spells call g s := by
  intro a c st d
  rcases h a c with ⟨tokens, e, v, hReads, hTokens, hRun⟩ | ⟨hMissing, e, hRun⟩
  · rw [Parser.endsAt_iff_of_ok hRun]
    constructor
    · rintro rfl
      exact ⟨tokens, hReads, hTokens⟩
    · rintro ⟨others, hOther, hOthers⟩
      have hLength := congrArg length (hTokens.trans hOthers.symm)
      rw [length_map, length_map] at hLength
      exact (hReads.eq_of_length_eq hOther hLength).symm
  · refine iff_of_false (Parser.not_endsAt_of_error hRun) fun hReads => ?_
    exact hMissing (exists_reads_iff.mp ⟨d, hReads⟩)

/-- A literal is read, or it is missing and then the first character that is not there is
named. -/
theorem literal_cases (call : Reference → Parser C Value) (a : Address) (s : String) (c : C) :
    (∃ tokens d, Reads c tokens d ∧ tokens.map Token.toChar = s.toList ∧
      (literal s).parser call a c = Run.stop (.ok (.text s, d))) ∨
    (¬s.toList <+: unread c ∧ ∃ k x, FirstMismatch (· == ·) s.toList (unread c) k x ∧
      (literal s).parser call a c = Run.stop (.error
        ((ParseError.new c (.mismatch x (unread c)[k]? s)).expecting (Quoted.text s)))) := by
  rcases matchAll_cases id s.toList c with ⟨hPrefix, d, hMatch, hReads⟩ | ⟨hMissing, _, hMatch⟩
  · rw [map_id] at hPrefix
    change Parser.matchAll (· == ·) s.toList c = .ok d at hMatch
    refine .inl ⟨_, d, hReads, map_take.trans (prefix_iff_eq_take.mp hPrefix).symm, ?_⟩
    funext st
    simp only [parser, Parser.map, Parser.onResult, Parser.literal, hMatch]
    rfl
  · rw [map_id] at hMissing
    change Parser.matchAll (· == ·) s.toList c = .error _ at hMatch
    obtain ⟨k, hMismatch, hFound⟩ := Parser.firstMismatch_of_matchAll hMatch
    refine .inr ⟨hMissing, k, _, hMismatch, ?_⟩
    funext st
    simp only [parser, Parser.map, Parser.onResult, Parser.literal, hMatch, hFound]
    rfl

theorem spells_literal (s : String) : Spells call (literal s) s.toList := by
  refine spells_of_cases fun a c => ?_
  rcases literal_cases call a s c with ⟨tokens, d, hReads, hTokens, hRun⟩ |
    ⟨hMissing, k, x, -, hRun⟩
  · exact .inl ⟨tokens, d, _, hReads, hTokens, hRun⟩
  · exact .inr ⟨hMissing, _, hRun⟩

theorem spells_pure (v : Value) : Spells call (.pure v) ([] : List Char) :=
  spells_of_cases fun _ c => .inl ⟨[], c, v, .refl c, rfl, rfl⟩

theorem spells_char (x : Char) : Spells call (char x) [x] := by
  refine spells_of_cases fun a c => ?_
  rcases takesOne_labelled call (Quoted.char x) (· == x) a c with
    ⟨token, d, hTest, hReads, hRun⟩ | ⟨hNone, hRun⟩
  · exact .inl ⟨[token], d, _, hReads, congrArg (· :: []) (beq_iff_eq.mp hTest), hRun⟩
  · refine .inr ⟨fun hPrefix => ?_, _, hRun⟩
    obtain ⟨d, tokens, hReads, hTokens⟩ := exists_reads_iff.mpr hPrefix
    obtain ⟨token, rfl, rfl⟩ := map_eq_singleton_iff.mp hTokens
    rw [hReads.after_eq] at hNone
    simp at hNone

/-- Characters after a grammar, by induction on the characters. -/
theorem Spells.sequence (hFirst : Spells call g s) (more : List Char) :
    Spells call (sequence g (more.map char)) (s ++ more) := by
  induction more generalizing g s with
  | nil => exact s.append_nil.symm ▸ hFirst
  | cons x more ih => exact append_cons s x more ▸ ih (hFirst.both (spells_char x))

theorem spells_oneByOne (s : List Char) : Spells call (oneByOne s) s := by
  cases s with
  | nil => exact spells_pure .unit
  | cons x more => exact (spells_char x).sequence more

/-- At every cursor every literal is read exactly. -/
theorem literalExact (call : Reference → Parser C Value) (a : Address) (s : String) (c : C) :
    LiteralExact call a s c where
  succeeds_iff st := by
    rw [← exists_reads_iff]
    exact exists_congr fun d => spells_literal s a c st d
  success := by
    intro st v d st' hRun
    rcases literal_cases call a s c with ⟨tokens, e, hReads, hTokens, hRead⟩ |
      ⟨-, k, x, -, hFails⟩
    · cases (congrFun hRead st).symm.trans hRun
      exact ⟨rfl, rfl, tokens, hReads, hTokens⟩
    · cases (congrFun hFails st).symm.trans hRun
  oneByOne a' st d := (spells_literal s a c st d).trans (spells_oneByOne s.toList a' c st d).symm
  failure := by
    intro hMissing
    rcases literal_cases call a s c with ⟨tokens, d, hReads, hTokens, -⟩ |
      ⟨-, k, x, hMismatch, hRun⟩
    · exact absurd (exists_reads_iff.mp ⟨d, tokens, hReads, hTokens⟩) hMissing
    · refine ⟨k, x, hMismatch, _, ?_, ?_, ?_, ?_, congrFun hRun⟩
      · rfl
      · rfl
      · rfl
      · exact message_mismatch x _ s
  append t a' a'' st d := by
    refine (spells_literal (s ++ t) a' c st d).trans ?_
    rw [String.toList_append]
    exact ((spells_literal s).both (spells_literal t) a'' c st d).symm

/-- Characters of several bytes that are read, and bytes of which the second one does not fit. -/
theorem literalExact_of_wide :
    (∃ d, (literal "éà").parser (fun _ => .silent) .fresh (TextCursor.ofSource ⟨0, "éà!"⟩) {} =
      some (.ok (.text "éà", d), {}) ∧ position d = 4 ∧ unread d = ['!']) ∧
    ∃ e, (literal "ab").parser (fun _ => .silent) .fresh
        (SliceCursor.ofSource ⟨1, (#[97, 233] : Array UInt8)⟩) {} = some (.error e, {}) ∧
      e.position = 0 ∧ e.expected = ["\"ab\""] ∧
      e.message = "expected \x27b\x27, found \x27é\x27 while matching \"ab\"" := by
  have hText := literalExact (fun _ => .silent) .fresh "éà" (TextCursor.ofSource ⟨0, "éà!"⟩)
  have hBytes := literalExact (fun _ => .silent) .fresh "ab"
    (SliceCursor.ofSource ⟨1, (#[97, 233] : Array UInt8)⟩)
  constructor
  · obtain ⟨d, v, st, hRun⟩ := (hText.succeeds_iff {}).mpr (by decide)
    obtain ⟨rfl, rfl, tokens, hReads, hTokens⟩ := hText.success _ _ _ _ hRun
    obtain rfl : tokens = ['é', 'à'] := (map_id tokens).symm.trans (hTokens.trans (by decide))
    refine ⟨d, hRun, hReads.position_eq, ?_⟩
    exact (append_cancel_left (hReads.unread_eq.symm.trans (by decide) :
      ['é', 'à'] ++ unread d = ['é', 'à'] ++ ['!']))
  · obtain ⟨k, x, ⟨hWanted, -, hDiffers⟩, e, -, hPosition, hExpected, hMessage, hRun⟩ :=
      hBytes.failure (by decide)
    -- the first byte is as wanted, and there is no third character
    obtain ⟨rfl, rfl⟩ : k = 1 ∧ x = 'b' := by
      match k, hWanted with
      | 0, hFirst =>
        cases hFirst
        exact absurd rfl (hDiffers 'a' (by decide))
      | 1, hSecond =>
        cases hSecond
        exact ⟨rfl, rfl⟩
    have hWant : Quoted.char 'b' = "\x27b\x27" :=
      Quoted.char_of_printable (Quoted.isPrintable_of_ascii (by decide) (by decide)) (by decide)
        (by decide)
    have hShown : Quoted.char 'é' = "\x27é\x27" :=
      Quoted.char_of_printable (by decide +kernel) (by decide) (by decide)
    have hFound : inItsPlace (some 'é') = ", found \x27é\x27 while matching " := by
      rw [inItsPlace, hShown]
      rfl
    have hLabel : Quoted.text "ab" = "\"ab\"" :=
      Quoted.text_of_printable (by simp [Quoted.isPrintable_of_ascii])
    rw [hLabel] at hExpected
    have hThere : (unread (SliceCursor.ofSource ⟨1, (#[97, 233] : Array UInt8)⟩))[1]? =
        some 'é' := rfl
    rw [hThere, hWant, hFound, hLabel] at hMessage
    exact ⟨e, hRun {}, hPosition, hExpected, hMessage⟩

end Grammar

end Packrat

import Packrat.Proofs.Cursors

/-!
# Locations and reading

A location is found by looking back from a cursor: the newlines before it are counted, and so
are the tokens after the last one of them. It can as well be kept while reading on, where a
newline starts the next line and any other token is one column more. Both ways agree at every
cursor that is reached, so locations are in the order of positions and tell cursors apart.

* `Location.next`: the location after one more token;
* `Location.after_append`: what is found by looking back is kept while reading on;
* `Location.Before`: the order of locations;
* `LineEnd`: what is consumed since the last newline;
* `LocationLaws`, `Carries.locations`: the locations of the cursors of a source;
* `locationLaws`: those of the cursors over texts, arrays of characters and arrays of bytes.
-/

namespace Packrat

open Input List

variable {C R τ σ : Type}

namespace Location

/-! ## The order of locations -/

/-- One location is before another one: on an earlier line, or on the same line and further to
the left. -/
def Before (l m : Location) : Prop :=
  l.line < m.line ∨ l.line = m.line ∧ l.column < m.column

instance (l m : Location) : Decidable (l.Before m) :=
  inferInstanceAs (Decidable (_ ∨ _))

variable {l m n : Location}

theorem Before.irrefl : ¬l.Before l := by
  unfold Before
  omega

theorem Before.trans (h : l.Before m) (k : m.Before n) : l.Before n := by
  unfold Before at *
  omega

/-! ## Reading on -/

variable [DecidableEq τ] {newline : τ} {isNewline : τ → Bool}

/-- The location after one more token. A newline starts the next line. -/
def next (newline : τ) (l : Location) (token : τ) : Location :=
  if token = newline then ⟨l.line + 1, 0⟩ else ⟨l.line, l.column + 1⟩

theorem before_next (token : τ) : l.Before (l.next newline token) := by
  unfold Before next
  split
  · exact .inl (Nat.lt_succ_self _)
  · exact .inr ⟨rfl, Nat.lt_succ_self _⟩

/-- Whatever is read, the location moves on, by induction on what is read. -/
theorem before_foldl_next {tokens : List τ} (h : tokens ≠ []) :
    l.Before (tokens.foldl (next newline) l) := by
  induction tokens generalizing l with
  | nil => exact absurd rfl h
  | cons token tokens ih =>
    rw [foldl_cons]
    by_cases hLast : tokens = []
    · rw [hLast]
      exact before_next token
    · exact (before_next token).trans (ih hLast)

/-- Looking back over one token more. -/
theorem after_concat (hNewline : ∀ x, isNewline x ↔ x = newline) (consumed : List τ) (token : τ) :
    after isNewline (consumed ++ [token]) = (after isNewline consumed).next newline token := by
  unfold after next
  by_cases hToken : token = newline
  · have hTest : isNewline token = true := (hNewline token).mpr hToken
    simp only [countP_append, countP_singleton, reverse_concat, takeWhile_cons, hTest,
      if_pos hToken]
    rfl
  · have hTest : isNewline token = false :=
      Bool.eq_false_iff.mpr (mt (hNewline token).mp hToken)
    simp only [countP_append, countP_singleton, reverse_concat, takeWhile_cons, hTest,
      if_neg hToken]
    rfl

/-- What is found by looking back is kept while reading on. -/
theorem after_append (hNewline : ∀ x, isNewline x ↔ x = newline) (consumed tokens : List τ) :
    after isNewline (consumed ++ tokens) =
      tokens.foldl (next newline) (after isNewline consumed) := by
  induction tokens generalizing consumed with
  | nil => rw [append_nil, foldl_nil]
  | cons token tokens ih => rw [append_cons, ih, after_concat hNewline, foldl_cons]

end Location

/-- Some tokens end with a line: those after the last newline, or all of them if there is
none. -/
def LineEnd (newline : τ) (tokens line : List τ) : Prop :=
  newline ∉ line ∧ (tokens = line ∨ ∃ lines, tokens = lines ++ newline :: line)

/-- The column counts the tokens since the last newline. -/
theorem exists_lineEnd [DecidableEq τ] {newline : τ} {isNewline : τ → Bool}
    (hNewline : ∀ x, isNewline x ↔ x = newline) (tokens : List τ) :
    ∃ line, LineEnd newline tokens line ∧
      (Location.after isNewline tokens).column = line.length := by
  have hNone : ∀ {line : List τ}, (∀ x ∈ line, ¬isNewline x) → newline ∉ line :=
    fun h hMem => h newline hMem ((hNewline newline).mpr rfl)
  rcases Checked.exists_last isNewline tokens with
    ⟨lines, token, line, rfl, hToken, hLine, hLength⟩ | ⟨hLine, hLength⟩
  · obtain rfl := (hNewline token).mp hToken
    exact ⟨line, ⟨hNone hLine, .inr ⟨lines, rfl⟩⟩, hLength.symm⟩
  · exact ⟨tokens, ⟨hNone hLine, .inl rfl⟩, hLength.symm⟩

/-! ## Locations of cursors -/

theorem SameSource.symm [Input C τ σ] [InputView C τ σ] {c d : C} (h : SameSource c d) :
    SameSource d c :=
  ⟨h.source_eq.symm, h.content_eq.symm⟩

/-- The locations of the cursors of a source, which are reached from its start, and of the
same cursors made of words. -/
structure LocationLaws [Input C τ σ] [InputView C τ σ] [WordInput R τ σ] [DecidableEq τ]
    (newline : τ) (words : C → R) (start : C) (new : R) : Prop where
  location_start : location start = ⟨1, 0⟩
  location_uncons : ∀ c token d, Reached start c → uncons c = some (token, d) →
    location d = (location c).next newline token
  location_splitAt : ∀ c n slice d, Reached start c → splitAt n c = some (slice, d) →
    ∃ tokens, unconsEach n c = some (tokens, d) ∧ slice = sliceOf C tokens ∧
      location d = tokens.foldl (Location.next newline) (location c)
  /-- The line and the column count what is consumed. -/
  consumed : ∀ c, Reached start c → ∃ tokens line,
    unconsEach (count start - count c) start = some (tokens, c) ∧
      location c = tokens.foldl (Location.next newline) ⟨1, 0⟩ ∧
      (location c).line = 1 + tokens.count newline ∧
      LineEnd newline tokens line ∧ (location c).column = line.length
  before_iff : ∀ c d, Reached start c → Reached start d →
    ((location c).Before (location d) ↔ position c < position d)
  eq_iff : ∀ c d, Reached start c → Reached start d →
    (location c = location d ↔ position c = position d)
  /-- Looking back in the source finds these locations, and no other cursors are reached
  there. -/
  lookBack : ∀ limit, (source start).size < limit →
    (∀ c, Reached start c → WordInput.location limit (words c) = .ok (location c)) ∧
      ∀ r, WordInput.Reached limit new r → ∃ c, Reached start c ∧ words c = r

section

variable [Input C τ σ] [InputView C τ σ] [Token τ] [LawfulInput C] [DecidableEq τ] {newline : τ}
  {c d start : C} {tokens : List τ}

/-- Reading on keeps the location. -/
theorem Reads.location_eq (h : Reads c tokens d)
    (hNewline : ∀ x : τ, Token.isNewline x ↔ x = newline) :
    location d = tokens.foldl (Location.next newline) (location c) := by
  rw [LawfulInput.location_eq, LawfulInput.location_eq, h.before_eq, Location.after_append hNewline]

/-- Of two cursors of one source, the location of the one that is behind is before that of
the other one. -/
theorem SameSource.location_before (h : SameSource c d)
    (hNewline : ∀ x : τ, Token.isNewline x ↔ x = newline) (hLt : position c < position d) :
    (location c).Before (location d) := by
  obtain ⟨tokens, hReads⟩ := h.reads (Nat.le_of_lt hLt)
  rw [hReads.location_eq hNewline]
  exact Location.before_foldl_next (hReads.position_lt_iff.mp hLt)

/-- Cursors of one source have different locations at different positions. -/
theorem SameSource.location_eq_iff (h : SameSource c d)
    (hNewline : ∀ x : τ, Token.isNewline x ↔ x = newline) :
    location c = location d ↔ position c = position d := by
  constructor
  · intro hLocation
    rcases Nat.lt_trichotomy (position c) (position d) with hLt | hEq | hLt
    · exact absurd (hLocation ▸ h.location_before hNewline hLt) Location.Before.irrefl
    · exact hEq
    · exact absurd (hLocation ▸ h.symm.location_before hNewline hLt) Location.Before.irrefl
  · intro hPosition
    rw [h.eq_of_position_eq hPosition]

theorem SameSource.location_before_iff (h : SameSource c d)
    (hNewline : ∀ x : τ, Token.isNewline x ↔ x = newline) :
    (location c).Before (location d) ↔ position c < position d := by
  constructor
  · intro hBefore
    rcases Nat.lt_trichotomy (position c) (position d) with hLt | hEq | hLt
    · exact hLt
    · rw [(h.location_eq_iff hNewline).mpr hEq] at hBefore
      exact absurd hBefore Location.Before.irrefl
    · exact absurd (hBefore.trans (h.symm.location_before hNewline hLt)) Location.Before.irrefl
  · exact h.location_before hNewline

variable [WordInput R τ σ] {words : C → R} {new : R}

/-- The locations of cursors that are carried over to words faithfully. -/
theorem Carries.locations (hCarries : ∀ limit, Carries limit words)
    (hNewline : ∀ x : τ, Token.isNewline x ↔ x = newline) (hBefore : before start = [])
    (hNew : words start = new) : LocationLaws newline words start new := by
  have hStart : location start = ⟨1, 0⟩ := by
    rw [LawfulInput.location_eq, hBefore]
    rfl
  exact
    { location_start := hStart
      location_uncons := fun c token d _ hUncons => (reads_of_uncons hUncons).location_eq hNewline
      location_splitAt := by
        intro c n slice d _ hSplit
        obtain ⟨tokens, hReads, rfl, hSlice⟩ := reads_of_splitAt hSplit
        exact ⟨tokens, unconsEach_of_reads hReads, hSlice, hReads.location_eq hNewline⟩
      consumed := by
        intro c hc
        obtain ⟨tokens, hReads⟩ := hc.reads
        obtain ⟨line, hLine, hColumn⟩ := exists_lineEnd hNewline tokens
        have hTokens : before c = tokens := by rw [hReads.before_eq, hBefore, nil_append]
        have hLocation := LawfulInput.location_eq c
        rw [hTokens] at hLocation
        refine ⟨tokens, line, ?_, hStart ▸ hReads.location_eq hNewline, ?_, hLine,
          hLocation ▸ hColumn⟩
        · rw [hReads.count_eq, Nat.add_sub_cancel]
          exact unconsEach_of_reads hReads
        · rw [hLocation, count_eq_countP]
          refine congrArg (1 + ·) (countP_congr fun x _ => ?_)
          rw [hNewline, beq_iff_eq]
      before_iff := fun c d hc hd => (hc.sameSource hd).location_before_iff hNewline
      eq_iff := fun c d hc hd => (hc.sameSource hd).location_eq_iff hNewline
      lookBack := by
        intro limit hSize
        refine ⟨fun c hc => ?_, fun r hReached => ?_⟩
        · rw [← (Reached.start.sameSource hc).source_eq] at hSize
          exact ((hCarries limit).same c hSize).location
        · exact (hCarries limit).exists_of_reached hSize (hNew ▸ hReached) }

end

/-- The locations of the cursors over texts, arrays of characters and arrays of bytes. -/
theorem locationLaws :
    (∀ text : Source String,
      LocationLaws '\n' TextCursor.words (.ofSource text) (.new text.content)) ∧
    (∀ chars : Source (Array Char),
      LocationLaws '\n' SliceCursor.words (.ofSource chars) (.new chars.content)) ∧
    ∀ bytes : Source (Array UInt8),
      LocationLaws 10 SliceCursor.words (.ofSource bytes) (.new bytes.content) := by
  have hChar : ∀ x : Char, Token.isNewline x ↔ x = '\n' := fun x => beq_iff_eq
  have hByte : ∀ x : UInt8, Token.isNewline x ↔ x = 10 := fun x => beq_iff_eq
  refine ⟨fun text => ?_, fun chars => ?_, fun bytes => ?_⟩
  · exact Carries.locations TextCursor.carries hChar (TextCursor.before_ofSource text) rfl
  · exact Carries.locations SliceCursor.carries hChar (SliceCursor.before_eq _) rfl
  · exact Carries.locations SliceCursor.carries hByte (SliceCursor.before_eq _) rfl

/-- Characters of several bytes, and an empty line between two others. -/
theorem locationLaws_of_lines : ∃ c : TextCursor, Reached (.ofSource ⟨0, "é\n\n中x"⟩) c ∧
    position c = 7 ∧ location c = ⟨3, 1⟩ ∧
    WordInput.location (UInt64.size - 1) (TextCursor.words c) = .ok ⟨3, 1⟩ := by
  obtain ⟨slice, c, hSplit, hPosition⟩ : ∃ slice c,
      splitAt 4 (TextCursor.ofSource ⟨0, "é\n\n中x"⟩) = some (slice, c) ∧ position c = 7 :=
    ⟨_, _, rfl, rfl⟩
  have hReached : Reached (TextCursor.ofSource ⟨0, "é\n\n中x"⟩) c := .splitAt .start hSplit
  have hLaws := locationLaws.1 ⟨0, "é\n\n中x"⟩
  obtain ⟨tokens, hTokens, -, hLocation⟩ := hLaws.location_splitAt _ _ _ _ .start hSplit
  obtain rfl : ['é', '\n', '\n', '中'] = tokens := (Prod.mk.inj (Option.some.inj hTokens)).1
  rw [hLaws.location_start] at hLocation
  refine ⟨c, hReached, hPosition, hLocation, ?_⟩
  rw [(hLaws.lookBack _ (by decide)).1 c hReached, hLocation]
  rfl

end Packrat

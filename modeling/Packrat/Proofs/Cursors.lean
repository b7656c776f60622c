import Packrat.Proofs.Checked
import Packrat.Proofs.Memory

/-!
# The laws of cursors that are reached

The cursors of a source are those that are reached from its start, by taking tokens off
one by one or several at a time. For them the operations fit together: several tokens
are taken off as the same number of single ones, as many of them as are counted, and
slices between cursors are the tokens that lie between. Made of words, the same cursors
are reached and the same answers are given, and no step is impossible.

* `Input.unconsEach`: tokens taken off one by one;
* `Input.Reached`, `WordInput.Reached`: the cursors of a source;
* `CursorLaws`: the laws;
* `Carries.laws`: they hold of cursors that are carried over to words faithfully;
* `cursorLaws`: they hold of the cursors over texts, arrays of characters and bytes.
-/

namespace Packrat

open Input

variable {C R τ σ : Type}

section

variable [Input C τ σ]

/-- The next `n` tokens and the cursor after them, taken off one by one. -/
def Input.unconsEach (n : Nat) (c : C) : Option (List τ × C) :=
  match n with
  | 0 => some ([], c)
  | n + 1 => match uncons c with
    | some (token, d) => (unconsEach n d).map (Prod.map (token :: ·) id)
    | none => none

/-- The cursors that are reached from a start, by taking off one token or some. -/
inductive Input.Reached (start : C) : C → Prop
  | start : Reached start start
  | uncons {c d : C} {token : τ} (h : Reached start c) (hUncons : uncons c = some (token, d)) :
    Reached start d
  | splitAt {c d : C} {n : Nat} {slice : σ} (h : Reached start c)
    (hSplit : splitAt n c = some (slice, d)) : Reached start d

end

/-- The cursors made of words that are reached from a start. -/
inductive WordInput.Reached [WordInput R τ σ] (limit : Nat) (start : R) : R → Prop
  | start : Reached limit start start
  | uncons {r s : R} {token : τ} (h : Reached limit start r)
    (hUncons : WordInput.uncons limit r = .ok (some (token, s))) : Reached limit start s
  | splitAt {r s : R} {n : Nat} {slice : σ} (h : Reached limit start r)
    (hSplit : WordInput.splitAt limit n r = .ok (some (slice, s))) : Reached limit start s

/-- The laws of the cursors of a source, which are reached from its start, and of the same
cursors made of words. -/
structure CursorLaws [Input C τ σ] [InputView C τ σ] [WordInput R τ σ] [Append σ] (limit : Nat)
    (words : C → R) (start : C) (new : R) : Prop where
  words_start : words start = new
  exists_of_reached : ∀ r, WordInput.Reached limit new r → ∃ c, Reached start c ∧ words c = r
  wellPlaced : ∀ c, Reached start c → WordInput.WellPlaced (words c)
  eq_of_position_eq : ∀ c d, Reached start c → Reached start d → position c = position d → c = d
  isSome_splitAt : ∀ c n, Reached start c → ((splitAt n c).isSome ↔ n ≤ count c)
  splitAt_eq : ∀ c n, Reached start c →
    splitAt n c = (unconsEach n c).map (Prod.map (sliceOf C) id)
  splitAt_some : ∀ c n slice d, Reached start c → splitAt n c = some (slice, d) →
    slice = sliceTo c d ∧ count d = count c - n
  isEmpty_iff : ∀ c, Reached start c →
    (isEmpty c ↔ count c = 0) ∧ (isEmpty c ↔ uncons c = none)
  rest_eq : ∀ c, Reached start c →
    ∃ d tokens, unconsEach (count c) c = some (tokens, d) ∧ rest c = sliceOf C tokens
  sliceTo_eq : ∀ c d, Reached start c → Reached start d → position c ≤ position d →
    ∃ tokens, unconsEach (count c - count d) c = some (tokens, d) ∧
      sliceTo c d = sliceOf C tokens
  sliceTo_behind : ∀ c d, Reached start c → Reached start d → position d ≤ position c →
    sliceTo c d = sliceOf C []
  sliceTo_append : ∀ c d e, Reached start c → Reached start d → Reached start e →
    position c ≤ position d → position d ≤ position e →
    sliceTo c d ++ sliceTo d e = sliceTo c e
  same : ∀ c, Reached start c → SameOnWords limit words c
  sliceTo_words : ∀ c d, Reached start c → Reached start d →
    WordInput.sliceTo (words c) (words d) = .ok (sliceTo c d)

section

variable [Input C τ σ] [InputView C τ σ] [Token τ] [LawfulInput C] {c d e start : C}
  {tokens : List τ} {n : Nat}

/-! ## Tokens one by one -/

omit [Token τ] [LawfulInput C] in
/-- What is read after the first part of what is read. -/
theorem Reads.of_append {s t : List τ} (h : Reads c s e) (k : Reads c (s ++ t) d) :
    Reads e t d where
  buffer_eq := k.buffer_eq.trans h.buffer_eq.symm
  before_eq := by rw [k.before_eq, h.before_eq, List.append_assoc]
  after_eq := by
    refine List.append_cancel_left (h.after_eq.symm.trans ?_)
    rw [k.after_eq, List.append_assoc]

theorem unconsEach_of_reads (h : Reads c tokens d) :
    unconsEach tokens.length c = some (tokens, d) := by
  induction tokens generalizing c with
  | nil =>
    rw [h.eq (.refl c)]
    rfl
  | cons token tokens ih =>
    obtain ⟨e, hUncons, hFirst⟩ := LawfulInput.uncons_eq_some h.after_eq
    have hRest := ih (hFirst.of_append h)
    rw [List.length_cons, unconsEach, hUncons]
    simp [hRest]

theorem reads_of_unconsEach (h : unconsEach n c = some (tokens, d)) :
    Reads c tokens d ∧ tokens.length = n := by
  induction n generalizing c tokens with
  | zero =>
    cases h
    exact ⟨.refl _, rfl⟩
  | succ n ih =>
    unfold unconsEach at h
    rcases hUncons : uncons c with _ | ⟨token, e⟩
    · rw [hUncons] at h
      cases h
    · rw [hUncons] at h
      obtain ⟨⟨rest, d⟩, hRest, hEq⟩ := Option.map_eq_some_iff.mp h
      cases hEq
      obtain ⟨hReads, hLength⟩ := ih hRest
      exact ⟨(reads_of_uncons hUncons).trans hReads, congrArg Nat.succ hLength⟩

/-- Taking off some tokens at once or one by one comes to the same. -/
theorem splitAt_eq_unconsEach (n : Nat) (c : C) :
    splitAt n c = (unconsEach n c).map (Prod.map (sliceOf C) id) := by
  by_cases hLe : n ≤ (after c).length
  · obtain ⟨d, hSplit, hReads⟩ := LawfulInput.splitAt_eq_some hLe
    have hEach := unconsEach_of_reads hReads
    rw [List.length_take_of_le hLe] at hEach
    rw [hSplit, hEach]
    rfl
  · have hNone : unconsEach n c = none := by
      refine Option.eq_none_iff_forall_ne_some.mpr fun x hEach => hLe ?_
      obtain ⟨hReads, rfl⟩ := reads_of_unconsEach hEach
      rw [hReads.after_eq, List.length_append]
      exact Nat.le_add_right _ _
    rw [LawfulInput.splitAt_eq_none (Nat.lt_of_not_le hLe), hNone]
    rfl

theorem isSome_splitAt_iff (n : Nat) (c : C) : (splitAt n c).isSome ↔ n ≤ count c := by
  rw [LawfulInput.count_eq]
  by_cases hLe : n ≤ (after c).length
  · obtain ⟨d, hSplit, -⟩ := LawfulInput.splitAt_eq_some hLe
    simp [hSplit, hLe]
  · simp [LawfulInput.splitAt_eq_none (Nat.lt_of_not_le hLe), hLe]

theorem reads_of_splitAt {slice : σ} (h : splitAt n c = some (slice, d)) :
    ∃ tokens, Reads c tokens d ∧ tokens.length = n ∧ slice = sliceOf C tokens := by
  rw [splitAt_eq_unconsEach] at h
  obtain ⟨⟨tokens, e⟩, hEach, hEq⟩ := Option.map_eq_some_iff.mp h
  cases hEq
  obtain ⟨hReads, hLength⟩ := reads_of_unconsEach hEach
  exact ⟨tokens, hReads, hLength, rfl⟩

theorem splitAt_of_reads (h : Reads c tokens d) :
    splitAt tokens.length c = some (sliceOf C tokens, d) := by
  rw [splitAt_eq_unconsEach, unconsEach_of_reads h]
  rfl

/-! ## The end -/

theorem count_eq_zero_iff : count c = 0 ↔ uncons c = none := by
  rw [LawfulInput.count_eq, List.length_eq_zero_iff]
  exact ⟨LawfulInput.uncons_eq_none, after_eq_nil_of_uncons⟩

theorem isEmpty_iff_count : isEmpty c ↔ count c = 0 := by
  have hSize := position_le_size c
  have hLeft := left_eq c
  have hLength := length_le_widthOf (C := C) (after c)
  unfold isEmpty
  rw [decide_eq_true_iff, LawfulInput.count_eq, List.length_eq_zero_iff]
  constructor
  · intro hEnd
    unfold left at hLeft
    exact List.length_eq_zero_iff.mp (by omega)
  · intro hAfter
    rw [hAfter, widthOf_nil] at hLeft
    unfold left at hLeft
    omega

/-! ## Cursors of one source -/

/-- Of two cursors of one source, one is reached by reading from the other one. -/
theorem SameSource.reads (h : SameSource c d) (hLe : position c ≤ position d) :
    ∃ tokens, Reads c tokens d := by
  have hPrefix : before d <+: before c ++ after c := h.content_eq ▸ List.prefix_append _ _
  have hBuffer : (source d).buffer = (source c).buffer := by rw [h.source_eq]
  have hContent := h.content_eq
  rcases List.prefix_or_prefix_of_prefix (List.prefix_append _ _) hPrefix with
    ⟨tokens, hBefore⟩ | ⟨tokens, hBefore⟩
  · rw [← hBefore, List.append_assoc] at hContent
    exact ⟨tokens, hBuffer, hBefore.symm, (List.append_cancel_left hContent).symm⟩
  · -- the first one would be behind, so that nothing is read
    have hLength := length_le_widthOf (C := C) tokens
    rw [LawfulInput.position_eq, LawfulInput.position_eq, ← hBefore, widthOf_append] at hLe
    obtain rfl : tokens = [] := List.length_eq_zero_iff.mp (by omega)
    rw [List.append_nil] at hBefore
    rw [← hBefore] at hContent
    exact ⟨[], hBuffer, by rw [hBefore, List.append_nil], (List.append_cancel_left hContent).symm⟩

theorem SameSource.eq_of_position_eq (h : SameSource c d) (hPosition : position c = position d) :
    c = d := by
  obtain ⟨tokens, hReads⟩ := h.reads (Nat.le_of_eq hPosition)
  have hStay : ¬position c < position d := Nat.not_lt.mpr (Nat.le_of_eq hPosition.symm)
  rw [hReads.position_lt_iff, Classical.not_not] at hStay
  subst hStay
  exact (Reads.refl c).eq hReads

namespace Input.Reached

theorem reads (h : Reached start c) : ∃ tokens, Reads start tokens c := by
  induction h with
  | start => exact ⟨[], .refl start⟩
  | uncons h hUncons ih => exact Reads.exists_trans ih (reads_of_uncons hUncons)
  | splitAt h hSplit ih =>
    obtain ⟨tokens, hReads, -, -⟩ := reads_of_splitAt hSplit
    exact Reads.exists_trans ih hReads

theorem sameSource (hc : Reached start c) (hd : Reached start d) : SameSource c d := by
  obtain ⟨s, hLeft⟩ := hc.reads
  obtain ⟨t, hRight⟩ := hd.reads
  exact ⟨hRight.source_eq.trans hLeft.source_eq.symm,
    hRight.content_eq.trans hLeft.content_eq.symm⟩

end Input.Reached

/-! ## Cursors made of words -/

variable [WordInput R τ σ] {limit : Nat} {words : C → R}

namespace Carries

/-- On words no other cursors are reached than those that are carried over, by induction on
how they are reached. -/
theorem exists_of_reached (h : Carries limit words) (hSize : (source start).size < limit) {r : R}
    (hReached : WordInput.Reached limit (words start) r) :
    ∃ c, Reached start c ∧ words c = r := by
  have hSame : ∀ {c}, Reached start c → SameOnWords limit words c := by
    intro c hc
    rw [← (Reached.start.sameSource hc).source_eq] at hSize
    exact h.same c hSize
  induction hReached with
  | start => exact ⟨start, .start, rfl⟩
  | uncons _ hUncons ih =>
    obtain ⟨c, hc, rfl⟩ := ih
    rw [(hSame hc).uncons, Except.ok.injEq, Option.map_eq_some_iff] at hUncons
    obtain ⟨⟨token, d⟩, hNext, hEq⟩ := hUncons
    cases hEq
    exact ⟨d, hc.uncons hNext, rfl⟩
  | splitAt _ hSplit ih =>
    obtain ⟨c, hc, rfl⟩ := ih
    rw [(hSame hc).splitAt, Except.ok.injEq, Option.map_eq_some_iff] at hSplit
    obtain ⟨⟨slice, d⟩, hNext, hEq⟩ := hSplit
    cases hEq
    exact ⟨d, hc.splitAt hNext, rfl⟩

/-- Cursors that are carried over to words faithfully obey the laws. -/
theorem laws [Append σ] (h : Carries limit words) (hSize : (source start).size < limit) {new : R}
    (hNew : words start = new)
    (hAppend : ∀ s t : List τ, sliceOf C (s ++ t) = sliceOf C s ++ sliceOf C t) :
    CursorLaws limit words start new where
  words_start := hNew
  exists_of_reached r hReached := h.exists_of_reached hSize (hNew ▸ hReached)
  wellPlaced c _ := h.wellPlaced c
  eq_of_position_eq c d hc hd hPosition := (hc.sameSource hd).eq_of_position_eq hPosition
  isSome_splitAt c n _ := isSome_splitAt_iff n c
  splitAt_eq c n _ := splitAt_eq_unconsEach n c
  splitAt_some c n slice d _ hSplit := by
    obtain ⟨tokens, hReads, rfl, rfl⟩ := reads_of_splitAt hSplit
    exact ⟨(LawfulInput.sliceTo_eq hReads).symm, by rw [hReads.count_eq, Nat.add_sub_cancel_left]⟩
  isEmpty_iff c _ := ⟨isEmpty_iff_count, isEmpty_iff_count.trans count_eq_zero_iff⟩
  rest_eq c _ := by
    obtain ⟨d, -, hReads⟩ := LawfulInput.splitAt_eq_some (Nat.le_refl (after c).length)
    rw [List.take_length] at hReads
    exact ⟨d, after c, by rw [LawfulInput.count_eq]; exact unconsEach_of_reads hReads,
      LawfulInput.rest_eq c⟩
  sliceTo_eq c d hc hd hLe := by
    obtain ⟨tokens, hReads⟩ := (hc.sameSource hd).reads hLe
    refine ⟨tokens, ?_, LawfulInput.sliceTo_eq hReads⟩
    rw [hReads.count_eq, Nat.add_sub_cancel]
    exact unconsEach_of_reads hReads
  sliceTo_behind c d hc hd hLe := by
    obtain ⟨tokens, hReads⟩ := (hd.sameSource hc).reads hLe
    exact LawfulInput.sliceTo_behind hReads
  sliceTo_append c d e hc hd he hFirst hSecond := by
    obtain ⟨s, hLeft⟩ := (hc.sameSource hd).reads hFirst
    obtain ⟨t, hRight⟩ := (hd.sameSource he).reads hSecond
    rw [LawfulInput.sliceTo_eq hLeft, LawfulInput.sliceTo_eq hRight,
      LawfulInput.sliceTo_eq (hLeft.trans hRight), hAppend]
  same c hc := by
    rw [← (Reached.start.sameSource hc).source_eq] at hSize
    exact h.same c hSize
  sliceTo_words c d hc hd := by
    rcases Nat.le_total (position c) (position d) with hLe | hLe
    · obtain ⟨tokens, hReads⟩ := (hc.sameSource hd).reads hLe
      exact h.sliceTo hReads
    · obtain ⟨tokens, hReads⟩ := (hd.sameSource hc).reads hLe
      exact h.sliceTo_behind hReads

end Carries

end

/-- The laws of the cursors over texts, arrays of characters and arrays of bytes, where the
size of the source and one more are words. -/
theorem cursorLaws (limit : Nat) :
    (∀ text : Source String, text.content.utf8ByteSize < limit →
      CursorLaws limit TextCursor.words (.ofSource text) (.new text.content)) ∧
    (∀ chars : Source (Array Char), chars.content.size < limit →
      CursorLaws limit SliceCursor.words (.ofSource chars) (.new chars.content)) ∧
    ∀ bytes : Source (Array UInt8), bytes.content.size < limit →
      CursorLaws limit SliceCursor.words (.ofSource bytes) (.new bytes.content) := by
  refine ⟨fun text hSize => ?_, fun chars hSize => ?_, fun bytes hSize => ?_⟩
  · exact (TextCursor.carries limit).laws hSize rfl fun _ _ => String.ofList_append
  · exact (SliceCursor.carries limit).laws hSize rfl fun _ _ => rfl
  · exact (SliceCursor.carries limit).laws hSize rfl fun _ _ => rfl

/-- The largest word has 64 bits; the sources hold characters of several bytes, newlines and
nothing at all. -/
theorem cursorLaws_of_short :
    ("é\n中".utf8ByteSize < UInt64.size - 1 ∧ CursorLaws (UInt64.size - 1) TextCursor.words
      (.ofSource ⟨0, "é\n中"⟩) (.new "é\n中")) ∧
    (#['a', '\n', '中'].size < UInt64.size - 1 ∧ CursorLaws (UInt64.size - 1) SliceCursor.words
      (.ofSource ⟨1, #['a', '\n', '中']⟩) (.new #['a', '\n', '中'])) ∧
    ((#[] : Array UInt8).size < UInt64.size - 1 ∧ CursorLaws (UInt64.size - 1) SliceCursor.words
      (.ofSource ⟨2, (#[] : Array UInt8)⟩) (.new #[])) := by
  obtain ⟨hText, hChars, hBytes⟩ := cursorLaws (UInt64.size - 1)
  have hSize : "é\n中".utf8ByteSize < UInt64.size - 1 := by decide
  exact ⟨⟨hSize, hText ⟨0, "é\n中"⟩ hSize⟩, ⟨by decide, hChars ⟨1, #['a', '\n', '中']⟩ (by decide)⟩,
    by decide, hBytes ⟨2, #[]⟩ (by decide)⟩

end Packrat

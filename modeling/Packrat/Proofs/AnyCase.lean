import Packrat.Proofs.Literals

/-!
# Literals in either case

A literal in either case is read where as many tokens as it has characters are these characters
up to the case of ASCII letters, and it yields the tokens as they stand. Characters are equal
up to case if and only if they fold to the same one. So this is an equivalence, and what is
read depends on the folded literal and on the folded input alone.

* `EqualUpToCase`, `equalUpToCase_iff`: characters that fold to the same one;
* `CaseKeepsWidth`: tokens that are equal up to case take up the same space;
* `Recased`: cursors between tokens that are equal up to case;
* `BeginsUpToCase`, `BeginsUpToCase.iff_folded`: the input begins with a literal up to case;
* `Grammar.literalAnyCase_cases`, `Grammar.endsAt_literalAnyCase_iff`: a literal is read there,
  and nowhere else;
* `Grammar.AnyCaseExact`: what it is to read a literal in either case;
* `Grammar.anyCaseExact`: at every cursor every literal is read so.
-/

namespace Packrat

open Input List

/-! ## Characters up to case -/

/-- A capital ASCII letter, and the same letter as a small one. -/
def SmallOf (x y : Char) : Prop :=
  'A'.toNat ≤ x.toNat ∧ x.toNat ≤ 'Z'.toNat ∧ y.toNat = x.toNat + 32

/-- Characters that are equal, or one ASCII letter in the two cases. -/
def EqualUpToCase (x y : Char) : Prop :=
  x = y ∨ SmallOf x y ∨ SmallOf y x

theorem toNat_toLower (x : Char) : x.toLower.toNat =
    if 'A'.toNat ≤ x.toNat ∧ x.toNat ≤ 'Z'.toNat then x.toNat + 32 else x.toNat := by
  unfold Char.toLower
  split
  · rename_i hCapital
    have hLe : x.val.toNat ≤ 90 := hCapital.2
    have hShift : (32 : UInt32).toNat = 32 := rfl
    rw [if_pos ⟨hCapital.1, hCapital.2⟩]
    show (x.val + 32).toNat = x.val.toNat + 32
    rw [UInt32.toNat_add]
    omega
  · rename_i hOther
    exact (if_neg hOther).symm

/-- Characters are equal up to case if they fold to the same one. -/
theorem equalUpToCase_iff {x y : Char} : EqualUpToCase x y ↔ x.toLower = y.toLower := by
  have hFirst : 'A'.toNat = 65 := rfl
  have hLast : 'Z'.toNat = 90 := rfl
  unfold EqualUpToCase SmallOf
  rw [← Char.toNat_inj, ← Char.toNat_inj, toNat_toLower, toNat_toLower]
  split <;> split <;> omega

namespace EqualUpToCase

variable {x y : Char}

/-- Letters in either case are encoded in one byte. -/
theorem utf8Size_eq (h : EqualUpToCase x y) : x.utf8Size = y.utf8Size := by
  have hSmall : ∀ {x y}, SmallOf x y → x.utf8Size = 1 ∧ y.utf8Size = 1 := by
    rintro x y ⟨-, hLast, hShift⟩
    have hZ : 'Z'.toNat = 90 := rfl
    constructor <;> refine Char.utf8Size_eq_one_iff.mpr (UInt32.le_iff_toNat_le.mpr ?_)
    · exact Nat.le_trans hLast (by decide)
    · show y.toNat ≤ 127
      omega
  rcases h with rfl | hCapital | hCapital
  · rfl
  · rw [(hSmall hCapital).1, (hSmall hCapital).2]
  · rw [(hSmall hCapital).1, (hSmall hCapital).2]

end EqualUpToCase

/-- Only the folded characters matter for equality up to case. -/
theorem forall₂_equalUpToCase_iff {s t : List Char} :
    Forall₂ EqualUpToCase s t ↔ s.map Char.toLower = t.map Char.toLower := by
  have hFold : EqualUpToCase = fun x y => x.toLower = y.toLower := by
    funext x y
    exact propext equalUpToCase_iff
  rw [← forall₂_eq_eq_eq, forall₂_map_left_iff, forall₂_map_right_iff, hFold]

/-! ## Cursors up to case -/

section

variable {C τ σ : Type} [Input C τ σ] [InputView C τ σ] [Token τ]

/-- Tokens whose characters are equal up to case. -/
def TokensUpToCase (s t : List τ) : Prop :=
  Forall₂ (fun x y => EqualUpToCase (Token.toChar x) (Token.toChar y)) s t

/-- Tokens that are equal up to case take up the same space in a source. -/
class CaseKeepsWidth (C : Type) {τ σ : outParam Type} [InputView C τ σ] [Token τ] : Prop where
  width_eq : ∀ x y : τ, EqualUpToCase (Token.toChar x) (Token.toChar y) →
    InputView.width (C := C) x = InputView.width (C := C) y

instance : CaseKeepsWidth TextCursor where
  width_eq _ _ := EqualUpToCase.utf8Size_eq

instance {τ : Type} [Token τ] : CaseKeepsWidth (SliceCursor τ) where
  width_eq _ _ _ := rfl

/-- Cursors between tokens that are equal up to case. -/
structure Recased (c c' : C) : Prop where
  passed : TokensUpToCase (before c) (before c')
  unread : TokensUpToCase (after c) (after c')

/-- What is unread begins with a literal up to case. -/
structure BeginsUpToCase (s : String) (c : C) : Prop where
  length_le : s.length ≤ count c
  equal : Forall₂ EqualUpToCase ((unread c).take s.length) s.toList

theorem TokensUpToCase.folded_eq {s t : List τ} (h : TokensUpToCase s t) :
    (s.map Token.toChar).map Char.toLower = (t.map Token.toChar).map Char.toLower := by
  rw [← forall₂_equalUpToCase_iff, forall₂_map_left_iff, forall₂_map_right_iff]
  exact h

omit [Input C τ σ] in
theorem TokensUpToCase.widthOf_eq [CaseKeepsWidth C] {s t : List τ} (h : TokensUpToCase s t) :
    widthOf C s = widthOf C t := by
  induction h with
  | nil => rfl
  | cons hToken _ ih => rw [widthOf_cons, widthOf_cons, ih, CaseKeepsWidth.width_eq _ _ hToken]

variable {c d c' d' : C} {s : String} {n : Nat}

theorem Recased.of_reads (h : Recased c c') (hReads : Reads c ((after c).take n) d)
    (hReads' : Reads c' ((after c').take n) d') : Recased d d' where
  passed := by
    rw [hReads.before_eq, hReads'.before_eq]
    exact rel_append h.passed (forall₂_take n h.unread)
  unread := by
    rw [← hReads.drop_length, ← hReads'.drop_length]
    exact forall₂_drop n h.unread

variable [LawfulInput C]

theorem Recased.position_eq [CaseKeepsWidth C] (h : Recased c c') : position c = position c' := by
  rw [LawfulInput.position_eq, LawfulInput.position_eq, h.passed.widthOf_eq]

theorem Recased.count_eq (h : Recased c c') : count c = count c' := by
  rw [LawfulInput.count_eq, LawfulInput.count_eq, Forall₂.length_eq h.unread]

theorem BeginsUpToCase.iff_folded : BeginsUpToCase s c ↔
    s.toList.map Char.toLower <+: (unread c).map Char.toLower := by
  rw [prefix_iff_eq_take, ← map_take, length_map, String.length_toList, eq_comm,
    ← forall₂_equalUpToCase_iff]
  constructor
  · exact BeginsUpToCase.equal
  · intro hEqual
    refine ⟨?_, hEqual⟩
    have hLength := hEqual.length_eq
    rw [length_take, unread, length_map, String.length_toList] at hLength
    rw [LawfulInput.count_eq]
    omega

/-- Another character in the place of one that is compared does not fit. -/
theorem BeginsUpToCase.not_replaced {k : Nat} {x y : τ} (h : BeginsUpToCase s c)
    (hCompared : k < s.length) (hOld : (after c)[k]? = some x)
    (hDiffer : ¬EqualUpToCase (Token.toChar x) (Token.toChar y))
    (hNew : after c' = (after c).set k y) : ¬BeginsUpToCase s c' := by
  intro h'
  have hLength : k < (s.toList.map Char.toLower).length := by
    rwa [length_map, String.length_toList]
  have hBefore := prefix_iff_getElem?.mp (BeginsUpToCase.iff_folded.mp h) k hLength
  have hAfter := prefix_iff_getElem?.mp (BeginsUpToCase.iff_folded.mp h') k hLength
  have hPlace : k < (after c).length := (List.getElem?_eq_some_iff.mp hOld).1
  simp only [unread, getElem?_map, hOld, Option.map_some] at hBefore
  simp only [unread, hNew, getElem?_map, getElem?_set_self hPlace, Option.map_some] at hAfter
  exact hDiffer (equalUpToCase_iff.mpr (Option.some.inj (hBefore.trans hAfter.symm)))

end

/-! ## Grammars -/

namespace Grammar

variable {C τ σ : Type} [Input C τ σ] [InputView C τ σ] [Token τ] [ToValue τ] [ToValue σ]

/-- What it is to read a literal in either case at a cursor. The state is not heeded, and it is
not changed. -/
structure AnyCaseExact (call : Reference → Parser C Value) (a : Address) (s : String) (c : C) :
    Prop where
  succeeds_iff : ∀ st, (∃ d, ((literalAnyCase s).parser call a).EndsAt c st d) ↔
    BeginsUpToCase s c
  /-- Then as many tokens are read as it has characters, and they are the value as they
  stand. -/
  success : ∀ st v d st', (literalAnyCase s).parser call a c st = some (.ok (v, d), st') →
    st' = st ∧ Reads c ((after c).take s.length) d ∧ v = ToValue.toValue (sliceTo c d) ∧
      sliceTo c d = sliceOf C ((after c).take s.length)
  failure : ¬BeginsUpToCase s c → ∃ e : ParseError C, e.remaining = c ∧
    ∀ st, (literalAnyCase s).parser call a c st = some (.error e, st)
  /-- The literal as it is written is read in the same way. -/
  of_literal : ∀ a' st d, ((literal s).parser call a').EndsAt c st d →
    ((literalAnyCase s).parser call a).EndsAt c st d
  /-- So is the literal with some letters in the other case. -/
  recasedLiteral : ∀ t : String, Forall₂ EqualUpToCase s.toList t.toList → ∀ a' st d,
    ((literalAnyCase s).parser call a).EndsAt c st d ↔
      ((literalAnyCase t).parser call a').EndsAt c st d
  /-- Letters of the input in the other case make no difference either. -/
  recasedInput : ∀ c', Recased c c' → ∀ st st',
    ((∃ d, ((literalAnyCase s).parser call a).EndsAt c st d) ↔
      ∃ d', ((literalAnyCase s).parser call a).EndsAt c' st' d') ∧
    ∀ d d', ((literalAnyCase s).parser call a).EndsAt c st d →
      ((literalAnyCase s).parser call a).EndsAt c' st' d' →
      Recased d d' ∧ position d = position d' ∧ count d = count d'
  /-- Another character in the place of one that was compared makes a success a failure. -/
  replaced : ∀ c' k x y, k < s.length → (after c)[k]? = some x →
    ¬EqualUpToCase (Token.toChar x) (Token.toChar y) → after c' = (after c).set k y →
    (∃ st d, ((literalAnyCase s).parser call a).EndsAt c st d) →
    ∃ e : ParseError C, e.remaining = c' ∧
      ∀ st, (literalAnyCase s).parser call a c' st = some (.error e, st)

variable [LawfulInput C] {call : Reference → Parser C Value} {a : Address} {s : String} {c d : C}
  {st : State C}

/-- A literal in either case is read where the input begins with it up to case, and fails
elsewhere. -/
theorem literalAnyCase_cases (call : Reference → Parser C Value) (a : Address) (s : String)
    (c : C) :
    (BeginsUpToCase s c ∧ ∃ d, Reads c ((after c).take s.length) d ∧
      (literalAnyCase s).parser call a c = Run.stop (.ok (ToValue.toValue (sliceTo c d), d))) ∨
    (¬BeginsUpToCase s c ∧ ∃ e : ParseError C, e.remaining = c ∧
      (literalAnyCase s).parser call a c = Run.stop (.error e)) := by
  have hFolded : (after c).map (Char.toLower ∘ Token.toChar) = (unread c).map Char.toLower :=
    map_map.symm
  rw [BeginsUpToCase.iff_folded, ← hFolded, ← String.length_toList]
  rcases matchAll_cases Char.toLower s.toList c with
    ⟨hPrefix, d, hMatch, hReads⟩ | ⟨hMissing, ⟨x, found⟩, hMatch⟩
  · change Parser.matchAll Parser.sameButCase s.toList c = .ok d at hMatch
    refine .inl ⟨hPrefix, d, hReads, ?_⟩
    funext st
    simp only [parser, Parser.map, Parser.onResult, Parser.literalAnyCase, hMatch]
    rfl
  · change Parser.matchAll Parser.sameButCase s.toList c = .error _ at hMatch
    refine .inr ⟨hMissing, (ParseError.new c (.mismatch x found s)).expecting
      (Quoted.text s ++ " (any case)"), rfl, ?_⟩
    funext st
    simp only [parser, Parser.map, Parser.onResult, Parser.literalAnyCase, hMatch]
    rfl

theorem endsAt_literalAnyCase_iff : ((literalAnyCase s).parser call a).EndsAt c st d ↔
    BeginsUpToCase s c ∧ Reads c ((after c).take s.length) d := by
  rcases literalAnyCase_cases call a s c with ⟨hBegins, e, hReads, hRun⟩ | ⟨hMissing, e, -, hRun⟩
  · rw [Parser.endsAt_iff_of_ok hRun]
    constructor
    · rintro rfl
      exact ⟨hBegins, hReads⟩
    · rintro ⟨-, hOther⟩
      exact hOther.eq hReads
  · exact iff_of_false (Parser.not_endsAt_of_error hRun) fun h => hMissing h.1

theorem exists_endsAt_literalAnyCase_iff :
    (∃ d, ((literalAnyCase s).parser call a).EndsAt c st d) ↔ BeginsUpToCase s c := by
  constructor
  · rintro ⟨d, hEnd⟩
    exact (endsAt_literalAnyCase_iff.mp hEnd).1
  · intro hBegins
    rcases literalAnyCase_cases call a s c with ⟨-, d, hReads, -⟩ | ⟨hMissing, -⟩
    · exact ⟨d, endsAt_literalAnyCase_iff.mpr ⟨hBegins, hReads⟩⟩
    · exact absurd hBegins hMissing

theorem literalAnyCase_missing (a : Address) (hMissing : ¬BeginsUpToCase s c) :
    ∃ e : ParseError C, e.remaining = c ∧
      ∀ st, (literalAnyCase s).parser call a c st = some (.error e, st) := by
  rcases literalAnyCase_cases call a s c with ⟨hBegins, -⟩ | ⟨-, e, hRemaining, hRun⟩
  · exact absurd hBegins hMissing
  · exact ⟨e, hRemaining, congrFun hRun⟩

/-- At every cursor every literal is read in either case. -/
theorem anyCaseExact [CaseKeepsWidth C] (call : Reference → Parser C Value) (a : Address)
    (s : String) (c : C) : AnyCaseExact call a s c where
  succeeds_iff _ := exists_endsAt_literalAnyCase_iff
  success := by
    intro st v d st' hRun
    rcases literalAnyCase_cases call a s c with ⟨-, e, hReads, hRead⟩ | ⟨-, e, -, hFails⟩
    · cases (congrFun hRead st).symm.trans hRun
      exact ⟨rfl, hReads, rfl, LawfulInput.sliceTo_eq hReads⟩
    · cases (congrFun hFails st).symm.trans hRun
  failure := literalAnyCase_missing a
  of_literal := by
    intro a' st d hEnd
    obtain ⟨tokens, hReads, hTokens⟩ := (spells_literal s a' c st d).mp hEnd
    have hPrefix := exists_reads_iff.mp ⟨d, tokens, hReads, hTokens⟩
    have hLength : s.length = tokens.length := by
      rw [← String.length_toList, ← hTokens, length_map]
    have hTake : (after c).take s.length = tokens := by
      rw [hReads.after_eq, hLength, take_left]
    rw [endsAt_literalAnyCase_iff, BeginsUpToCase.iff_folded, hTake]
    exact ⟨hPrefix.map _, hReads⟩
  recasedLiteral := by
    intro t hCase a' st d
    have hLength : s.length = t.length := by
      rw [← String.length_toList, ← String.length_toList, hCase.length_eq]
    rw [endsAt_literalAnyCase_iff, endsAt_literalAnyCase_iff, BeginsUpToCase.iff_folded,
      BeginsUpToCase.iff_folded, forall₂_equalUpToCase_iff.mp hCase, hLength]
  recasedInput := by
    intro c' hCase st st'
    constructor
    · rw [exists_endsAt_literalAnyCase_iff, exists_endsAt_literalAnyCase_iff,
        BeginsUpToCase.iff_folded, BeginsUpToCase.iff_folded, unread, unread,
        hCase.unread.folded_eq]
    · intro d d' hEnd hEnd'
      have hAfter := hCase.of_reads (endsAt_literalAnyCase_iff.mp hEnd).2
        (endsAt_literalAnyCase_iff.mp hEnd').2
      exact ⟨hAfter, hAfter.position_eq, hAfter.count_eq⟩
  replaced := by
    rintro c' k x y hCompared hOld hDiffer hNew ⟨st, d, hEnd⟩
    have hBegins := (endsAt_literalAnyCase_iff.mp hEnd).1
    exact literalAnyCase_missing a (hBegins.not_replaced hCompared hOld hDiffer hNew)

/-- A letter outside ASCII that stands as it is written between letters in either case, and the
neighbours of the letters, which have no case. -/
theorem anyCaseExact_of_wide :
    (∃ d, (literalAnyCase "Aék").parser (fun _ => .silent) .fresh
        (TextCursor.ofSource ⟨0, "aéK!"⟩) {} = some (.ok (.text "aéK", d), {}) ∧
      position d = 4 ∧ unread d = ['!']) ∧
    ∃ e, (literalAnyCase "@[").parser (fun _ => .silent) .fresh
        (SliceCursor.ofSource ⟨1, (#[96, 123] : Array UInt8)⟩) {} = some (.error e, {}) ∧
      e.remaining = SliceCursor.ofSource ⟨1, #[96, 123]⟩ := by
  have hText := anyCaseExact (fun _ => .silent) .fresh "Aék" (TextCursor.ofSource ⟨0, "aéK!"⟩)
  have hBytes := anyCaseExact (fun _ => .silent) .fresh "@["
    (SliceCursor.ofSource ⟨1, (#[96, 123] : Array UInt8)⟩)
  constructor
  · obtain ⟨d, v, st, hRun⟩ := (hText.succeeds_iff {}).mpr
      (BeginsUpToCase.iff_folded.mpr (by decide))
    obtain ⟨rfl, hReads, rfl, hSlice⟩ := hText.success _ _ _ _ hRun
    have hTokens : (after (TextCursor.ofSource ⟨0, "aéK!"⟩)).take "Aék".length =
        ['a', 'é', 'K'] := by decide
    rw [hTokens] at hReads hSlice
    rw [hSlice] at hRun
    refine ⟨d, hRun, hReads.position_eq, ?_⟩
    exact (append_cancel_left (hReads.unread_eq.symm.trans (by decide) :
      ['a', 'é', 'K'] ++ unread d = ['a', 'é', 'K'] ++ ['!']))
  · obtain ⟨e, hRemaining, hRun⟩ := hBytes.failure
      (mt BeginsUpToCase.iff_folded.mp (by decide))
    exact ⟨e, hRun {}, hRemaining⟩

end Grammar

end Packrat

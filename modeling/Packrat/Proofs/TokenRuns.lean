import Packrat.Grammar.Character
import Packrat.Proofs.Meaning
import Packrat.Proofs.Primitive

/-!
# Repeated tokens

A parser of one token, repeated, reads the longest run of tokens that it accepts. Nothing
is recorded, and the state is not changed.

* `Parser.TakesOne`: a parser of one token that passes a test;
* `Parser.TakesOne.option`, `Parser.TakesOne.many`, `Parser.TakesOne.many1`: a token that
  may be missing, and repetitions;
* `Grammar.takesOne_labelled`: the grammars of a class of characters.
-/

namespace Packrat

open Input List Run

variable {C τ σ α β : Type} [Input C τ σ] [InputView C τ σ]

namespace Parser

/-- A parser that takes a token that passes a test, and fails where there is none. -/
def TakesOne (p : Parser C α) (test : τ → Bool) (value : τ → α) (failure : C → ParseError C) :
    Prop :=
  ∀ c, (∃ token d, test token ∧ Reads c [token] d ∧ p c = stop (.ok (value token, d))) ∨
    ((after c).takeWhile test = [] ∧ p c = stop (.error (failure c)))

namespace TakesOne

variable {p : Parser C α} {test : τ → Bool} {value : τ → α} {failure : C → ParseError C}

/-- Working over the value does not change what is taken. -/
theorem map (h : p.TakesOne test value failure) (f : α → β) :
    (p.map f).TakesOne test (f ∘ value) failure := by
  intro c
  rw [map_eq]
  rcases h c with ⟨token, d, hTest, hReads, hRun⟩ | ⟨hNone, hRun⟩
  · exact .inl ⟨token, d, hTest, hReads, by rw [hRun]; rfl⟩
  · exact .inr ⟨hNone, by rw [hRun]; rfl⟩

theorem label (h : p.TakesOne test value failure) (name : String) :
    (p.label name).TakesOne test value fun c => (failure c).expecting name := by
  intro c
  rw [label_eq]
  rcases h c with ⟨token, d, hTest, hReads, hRun⟩ | ⟨hNone, hRun⟩
  · exact .inl ⟨token, d, hTest, hReads, by rw [hRun]; rfl⟩
  · exact .inr ⟨hNone, by rw [hRun]; rfl⟩

theorem reading (h : p.TakesOne test value failure) : Reading p := by
  intro c r hGives
  rcases h c with ⟨token, d, -, hReads, hRun⟩ | ⟨-, hRun⟩
  · rw [hRun, gives_stop] at hGives
    rw [hGives]
    exact ⟨_, hReads⟩
  · rw [hRun, gives_stop] at hGives
    rw [hGives]
    trivial

/-- A token that may be missing. -/
theorem option (h : p.TakesOne test value failure) (default : α) (c : C) :
    ∃ d, Reads c ((after c).head?.filter test).toList d ∧ option default p c =
      stop (.ok ((((after c).head?.filter test).map value).getD default, d)) := by
  rw [option_eq]
  rcases h c with ⟨token, d, hTest, hReads, hRun⟩ | ⟨hNone, hRun⟩
  · have hFirst : (after c).head?.filter test = some token := by
      rw [hReads.after_eq, singleton_append, head?_cons, Option.filter_some, if_pos hTest]
    rw [hFirst, hRun]
    exact ⟨d, hReads, rfl⟩
  · have hFirst : (after c).head?.filter test = none := by
      cases hAfter : after c with
      | nil => rfl
      | cons token tokens =>
        rw [hAfter, takeWhile_cons] at hNone
        rw [head?_cons, Option.filter_some, if_neg fun hTest => by simp [hTest] at hNone]
    rw [hFirst, hRun]
    exact ⟨c, .refl c, rfl⟩

variable [Token τ] [LawfulInput C]

/-- A repetition reads the longest run, by induction on the tokens to be read. -/
theorem many (h : p.TakesOne test value failure) (c : C) :
    ∃ d, Reads c ((after c).takeWhile test) d ∧
      many p c = stop (.ok (((after c).takeWhile test).map value, d)) := by
  generalize hAfter : after c = tokens
  induction tokens generalizing c with
  | nil =>
    rw [many_eq h.reading]
    rcases h c with ⟨token, d, -, hReads, -⟩ | ⟨-, hRun⟩
    · rw [hReads.after_eq] at hAfter
      cases hAfter
    · exact ⟨c, .refl c, by rw [hRun]; rfl⟩
  | cons first tokens ih =>
    rw [many_eq h.reading]
    rcases h c with ⟨token, d, hTest, hReads, hRun⟩ | ⟨hNone, hRun⟩
    · obtain ⟨rfl, hRest⟩ : token = first ∧ after d = tokens := by
        simpa using hReads.after_eq.symm.trans hAfter
      obtain ⟨e, hMore, hMany⟩ := ih d hRest
      have hMoved : position c < position d := hReads.position_lt_iff.mpr (cons_ne_nil _ _)
      rw [takeWhile_cons_of_pos hTest]
      refine ⟨e, hReads.trans hMore, ?_⟩
      rw [hRun, stop_followedBy, Result.cases_ok, if_pos hMoved, map_eq, hMany]
      rfl
    · rw [hAfter] at hNone
      rw [hNone]
      exact ⟨c, .refl c, by rw [hRun]; rfl⟩

/-- A repetition of at least one round fails where there is no token to be taken. -/
theorem many1 (h : p.TakesOne test value failure) (c : C) :
    ((after c).takeWhile test = [] ∧ many1 p c = stop (.error (failure c))) ∨
      ((after c).takeWhile test ≠ [] ∧ ∃ d, Reads c ((after c).takeWhile test) d ∧
        many1 p c = stop (.ok (((after c).takeWhile test).map value, d))) := by
  rw [many1_eq]
  rcases h c with ⟨token, d, hTest, hReads, hRun⟩ | ⟨hNone, hRun⟩
  · obtain ⟨e, hMore, hMany⟩ := h.many d
    have hMoved : position c < position d := hReads.position_lt_iff.mpr (cons_ne_nil _ _)
    have hAll : (after c).takeWhile test = token :: (after d).takeWhile test := by
      rw [hReads.after_eq, singleton_append, takeWhile_cons_of_pos hTest]
    rw [hAll]
    refine .inr ⟨cons_ne_nil _ _, e, hReads.trans hMore, ?_⟩
    rw [hRun, stop_followedBy, Result.cases_ok, if_pos hMoved, map_eq, hMany]
    rfl
  · exact .inl ⟨hNone, by rw [hRun]; rfl⟩

end TakesOne

variable [Token τ] [LawfulInput C]

theorem takesOne_satisfy (test : τ → Bool) :
    (satisfy test : Parser C τ).TakesOne test id unfit := by
  intro c
  unfold satisfy unfit
  rcases uncons_cases c with ⟨hUncons, hAfter⟩ | ⟨token, d, hUncons, hAfter⟩
  · rw [hAfter]
    exact .inr ⟨rfl, by simp only [hUncons]; rfl⟩
  · by_cases hTest : test token
    · exact .inl ⟨token, d, hTest, reads_of_uncons hUncons, by
        simp only [hUncons, if_pos hTest]; rfl⟩
    · rw [hAfter, takeWhile_cons_of_neg hTest]
      exact .inr ⟨rfl, by simp only [hUncons, if_neg hTest]; rfl⟩

end Parser

/-- A token whose character is of a class. -/
theorem Grammar.takesOne_labelled [Token τ] [LawfulInput C] [ToValue τ] [ToValue σ]
    (call : Reference → Parser C Value) (name : String) (test : Char → Bool) (a : Address) :
    ((labelled name test).parser call a).TakesOne (test ∘ Token.toChar) ToValue.toValue
      fun c => (Parser.unfit c).expecting name :=
  ((Parser.takesOne_satisfy _).map _).label name

end Packrat

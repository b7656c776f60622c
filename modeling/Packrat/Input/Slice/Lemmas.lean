import Packrat.Input.Slice
import Packrat.Input.Lawful

/-!
# The laws of cursors over an array

Every token takes up one unit, so a position is the number of tokens before it.
-/

namespace Packrat

open Input

namespace SliceCursor

variable {τ : Type}

instance : InputView (SliceCursor τ) τ (List τ) where
  before := SliceCursor.before
  after c := c.upTo c.source.content.size
  width _ := 1
  slice tokens := tokens

theorem before_eq (c : SliceCursor τ) : InputView.before c = c.source.content.toList.take c.index := by
  simp [InputView.before, SliceCursor.before]

theorem after_eq (c : SliceCursor τ) : InputView.after c = c.source.content.toList.drop c.index := by
  simp only [InputView.after, upTo, Array.toList_extract, List.extract_eq_take_drop]
  exact List.take_of_length_le (by simp)

theorem upTo_eq (c : SliceCursor τ) (stop : Nat) :
    c.upTo stop = (InputView.after c).take (stop - c.index) := by
  simp [after_eq, upTo]

theorem widthOf_eq (tokens : List τ) : widthOf (SliceCursor τ) tokens = tokens.length := by
  induction tokens with
  | nil => rfl
  | cons token tokens ih =>
    rw [widthOf_cons, ih, List.length_cons]
    exact Nat.add_comm 1 _

theorem length_before (c : SliceCursor τ) : (InputView.before c).length = c.index := by
  simp [before_eq, c.index_le]

theorem before_append_after (c : SliceCursor τ) :
    InputView.before c ++ InputView.after c = c.source.content.toList := by
  rw [before_eq, after_eq, List.take_append_drop]

variable [Token τ]

/-- A cursor of the same source with a larger index is reached by reading the
tokens between the two. -/
theorem reads_of_le {c : SliceCursor τ} {stop : Nat} (hStart : c.index ≤ stop)
    (hStop : stop ≤ c.source.content.size) :
    Reads c ((InputView.after c).take (stop - c.index))
      { c with index := stop, index_le := hStop } where
  buffer_eq := rfl
  before_eq := by
    obtain ⟨n, rfl⟩ := Nat.exists_eq_add_of_le hStart
    simp [before_eq, after_eq, List.take_add]
  after_eq := by
    obtain ⟨n, rfl⟩ := Nat.exists_eq_add_of_le hStart
    simp only [after_eq, Nat.add_sub_cancel_left]
    rw [← List.drop_drop, List.take_append_drop]

end SliceCursor

open SliceCursor in
instance {τ : Type} [Token τ] : LawfulInput (SliceCursor τ) where
  width_pos _ := Nat.one_pos
  position_eq c := by rw [widthOf_eq, length_before]; rfl
  size_eq c := by rw [widthOf_eq, before_append_after]; rfl
  eq_of_view {c d} hBuffer hBefore hAfter := by
    have hContent : c.source.content = d.source.content := by
      apply Array.toList_inj.mp
      rw [← before_append_after, ← before_append_after, hBefore, hAfter]
    have hIndex : c.index = d.index := by rw [← length_before, ← length_before, hBefore]
    obtain ⟨⟨_, _⟩, _, _⟩ := c
    obtain ⟨⟨_, _⟩, _, _⟩ := d
    simp_all [Input.source]
  uncons_eq_none {c} h := by
    rw [after_eq, List.drop_eq_nil_iff] at h
    simp only [uncons]
    rw [dif_neg (by simpa using h)]
  uncons_eq_some {c token tokens} h := by
    have hLt : c.index < c.source.content.size := by
      have := congrArg List.length h
      simp [after_eq] at this
      omega
    have hReads := reads_of_le (c := c) (Nat.le_succ c.index) hLt
    rw [h] at hReads
    refine ⟨_, ?_, by simpa using hReads⟩
    simp only [uncons, dif_pos hLt]
    rw [after_eq, List.drop_eq_getElem_cons (by simpa using hLt)] at h
    simp_all
  splitAt_eq_none {c n} h := by
    simp only [splitAt]
    rw [dif_neg]
    simp [after_eq] at h
    omega
  splitAt_eq_some {c n} h := by
    have hLe : c.index + n ≤ c.source.content.size := by
      have := c.index_le
      simp [after_eq] at h
      omega
    have hReads := reads_of_le (c := c) (Nat.le_add_right c.index n) hLe
    rw [Nat.add_sub_cancel_left] at hReads
    refine ⟨_, ?_, hReads⟩
    simp only [splitAt, dif_pos hLe, upTo_eq, Nat.add_sub_cancel_left]
    rfl
  sliceTo_eq {c d tokens} h := by
    have hIndex : d.index = c.index + tokens.length := by
      rw [← length_before, ← length_before, h.before_eq, List.length_append]
    simp only [sliceTo, upTo_eq, hIndex, Nat.add_sub_cancel_left, h.after_eq,
      List.take_left]
    rfl
  sliceTo_behind {c d tokens} h := by
    have hIndex : c.index = d.index + tokens.length := by
      rw [← length_before, ← length_before, h.before_eq, List.length_append]
    have : d.index - c.index = 0 := by omega
    simp only [sliceTo, upTo_eq, this, List.take_zero]
    rfl
  rest_eq _ := rfl
  count_eq c := by simp [count, after_eq]
  location_eq _ := rfl

end Packrat

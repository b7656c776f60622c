import Packrat.Input.Lawful

/-!
# What buffers hold

The key of a memo table names a source by its buffer and its size. This tells
sources apart if every source is the first part, or all, of what its buffer
holds, as is the case when buffers do not change while they are read.

* `InMemory`: the source of a cursor is the first part of what its buffer holds;
* `InMemory.eq_of_place_eq`: in one memory, the memo key of a cursor determines
  the cursor;
* `SameSource`: two cursors of one source.
-/

namespace Packrat

open Input

variable {C τ σ : Type} [Input C τ σ] [InputView C τ σ]

/-- The source of a cursor is the first part, or all, of what its buffer holds. -/
def InMemory (memory : Nat → List τ) (c : C) : Prop :=
  before c ++ after c <+: memory (source c).buffer

/-- Two cursors have one source: the same identity, and the same tokens. -/
structure SameSource (c d : C) : Prop where
  source_eq : source d = source c
  content_eq : before d ++ after d = before c ++ after c

section

variable [Token τ] [LawfulInput C]

/-- Two first parts of one list that take up the same space are equal. -/
theorem eq_of_prefix_of_widthOf_eq {s t l : List τ} (hs : s <+: l) (ht : t <+: l)
    (hWidth : widthOf C s = widthOf C t) : s = t := by
  rcases List.prefix_or_prefix_of_prefix hs ht with ⟨u, rfl⟩ | ⟨u, rfl⟩
  all_goals
    rw [widthOf_append] at hWidth
    have hLength := length_le_widthOf (C := C) u
    obtain rfl : u = [] := List.length_eq_zero_iff.mp (by omega)
    simp

/-- In one memory, a buffer and a size determine the tokens of a source. -/
theorem InMemory.content_eq {memory : Nat → List τ} {c d : C} (hc : InMemory memory c)
    (hd : InMemory memory d) (hSource : source c = source d) :
    before c ++ after c = before d ++ after d := by
  unfold InMemory at hc hd
  rw [← hSource] at hd
  refine eq_of_prefix_of_widthOf_eq (C := C) hc hd ?_
  rw [← LawfulInput.size_eq, ← LawfulInput.size_eq, hSource]

/-- In one memory, the memo key of a cursor determines the cursor. -/
theorem InMemory.eq_of_place_eq {memory : Nat → List τ} {c d : C} (hc : InMemory memory c)
    (hd : InMemory memory d) (hPlace : place c = place d) : c = d := by
  obtain ⟨hSource, hPosition⟩ : source c = source d ∧ position c = position d := by
    simpa only [place, Place.mk.injEq] using hPlace
  have hContent := hc.content_eq hd hSource
  have hBefore : before c = before d := by
    refine eq_of_prefix_of_widthOf_eq (C := C) (List.prefix_append _ (after c)) ?_ ?_
    · rw [hContent]
      exact List.prefix_append _ _
    · rw [← LawfulInput.position_eq, ← LawfulInput.position_eq, hPosition]
  rw [hBefore] at hContent
  exact LawfulInput.eq_of_view (by rw [hSource]) hBefore (List.append_cancel_left hContent)

end

namespace Reads

variable {c d : C} {tokens : List τ}

theorem content_eq (h : Reads c tokens d) : before d ++ after d = before c ++ after c := by
  rw [h.before_eq, h.after_eq, List.append_assoc]

/-- Reading stays within the memory. -/
theorem inMemory {memory : Nat → List τ} (h : Reads c tokens d) (hc : InMemory memory c) :
    InMemory memory d := by
  unfold InMemory
  rw [h.content_eq, h.buffer_eq]
  exact hc

theorem sameSource [Token τ] [LawfulInput C] (h : Reads c tokens d) : SameSource c d :=
  ⟨h.source_eq, h.content_eq⟩

end Reads

end Packrat

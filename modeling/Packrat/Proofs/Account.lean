import Packrat.Proofs.Equations
import Packrat.Proofs.Observed

/-!
# What a run does to the tables

The events of a run account for what it leaves in the tables that last: an entry is
added for every start of the parser inside a memoised one, and none is changed. No such
parser is started a second time at the place where it is running: it would be started
there forever, and the run of the plain grammar would be endless too.

* `Address.Lasting`, `Address.Within`: addresses of results that outlast a run, and of
  the parts of a grammar;
* `Event.starts`, `Event.invocations`: the places at which a memoised parser is seen;
* `Account`: what the events of a run say about the states around it;
* `Account.append`: two runs one after the other;
* `Account.memoised`: a memoised parser that stores what the parser inside it gives.
-/

namespace Packrat

open Input List

/-! ## Addresses -/

namespace Address

/-- The results at an address outlast the run of an expression. -/
def Lasting (a : Address) : Prop :=
  a.scope ≠ .current

theorem lasting_named (name : String) : (named name).Lasting :=
  Scope.noConfusion

/-- An address is that of a grammar, or of one of its parts. -/
structure Within (b a : Address) : Prop where
  scope_eq : b.scope = a.scope
  path_suffix : a.path <:+ b.path

variable {a b : Address} {t : Turn}

theorem Within.refl (a : Address) : a.Within a :=
  ⟨rfl, suffix_rfl⟩

theorem Within.of_turn (h : b.Within (a.turn t)) : b.Within a :=
  ⟨h.scope_eq, (suffix_cons t a.path).trans h.path_suffix⟩

theorem not_within_turn (a : Address) (t : Turn) : ¬a.Within (a.turn t) := by
  intro h
  have hLength := h.path_suffix.length_le
  unfold turn at hLength
  rw [length_cons] at hLength
  omega

end Address

theorem Program.At.stored?_eq_of_lasting {P : Program} {root g : Grammar} {a : Address}
    (hAt : P.At root a (.memo g)) (hLasting : a.Lasting) (root' : Grammar) :
    P.stored? root' a = some g := by
  rw [← hAt.stored?_eq]
  obtain ⟨name | -, path⟩ := a
  · rfl
  · exact absurd rfl hLasting

namespace State

variable {C : Type} {st : State C} {a : Address}

theorem lookup_fresh_of_lasting (h : a.Lasting) (p : Place) :
    { st with current := ∅ }.lookup a p = st.lookup a p := by
  obtain ⟨name | -, path⟩ := a
  · rfl
  · exact absurd rfl h

theorem lookup_restore_of_lasting (h : a.Lasting) (p : Place) (st' : State C) :
    { st' with current := st.current }.lookup a p = st'.lookup a p := by
  obtain ⟨name | -, path⟩ := a
  · rfl
  · exact absurd rfl h

end State

/-! ## Events -/

namespace Event

/-- The places at which the parser inside a memoised one is started. -/
def starts (a : Address) (events : List Event) : List Place :=
  events.filterMap fun
    | started b p => if b = a then some p else none
    | _ => none

/-- The places at which a memoised parser is run. -/
def invocations (a : Address) (events : List Event) : List Place :=
  events.filterMap fun
    | invoked b p => if b = a then some p else none
    | _ => none

variable {a : Address} {p : Place} {events : List Event}

theorem mem_starts_iff : p ∈ starts a events ↔ .started a p ∈ events := by
  unfold starts
  rw [mem_filterMap]
  constructor
  · rintro ⟨event, hMem, hEq⟩
    split at hEq
    · split at hEq
      · rename_i hAddress
        cases hEq
        exact hAddress ▸ hMem
      · cases hEq
    · cases hEq
  · intro hMem
    exact ⟨_, hMem, by simp⟩

theorem mem_invocations_iff : p ∈ invocations a events ↔ .invoked a p ∈ events := by
  unfold invocations
  rw [mem_filterMap]
  constructor
  · rintro ⟨event, hMem, hEq⟩
    split at hEq
    · split at hEq
      · rename_i hAddress
        cases hEq
        exact hAddress ▸ hMem
      · cases hEq
    · cases hEq
  · intro hMem
    exact ⟨_, hMem, by simp⟩

theorem starts_append (a : Address) (l m : List Event) :
    starts a (l ++ m) = starts a l ++ starts a m :=
  filterMap_append

end Event

section

variable {C τ σ : Type} [Input C τ σ] [InputView C τ σ] [Token τ] [ToValue τ] [ToValue σ]

/-! ## Accounts -/

/-- At a place, the plain grammar of an address yields a result where references are
followed to a depth. -/
def Program.Answers (C : Type) {τ σ : Type} [Input C τ σ] [InputView C τ σ] [Token τ] [ToValue τ]
    [ToValue σ] (P : Program) (memory : Nat → List τ) (n : Nat) (a : Address) (p : Place) : Prop :=
  ∃ g, ∃ c : C, ∃ r, (∀ root, P.stored? root a = some g) ∧ InMemory memory c ∧ place c = p ∧
    P.YieldsAt n g c r

/-- What the events of a run from one state to another one say about the two. The run is
one of a grammar at an address, and beside it the plain grammar is run where references
are followed to a depth. -/
structure Account (P : Program) (memory : Nat → List τ) (n : Nat) (a : Address) (st s : State C)
    (events : List Event) : Prop where
  /-- A stored result is kept. -/
  kept : ∀ {b p r}, b.Lasting → st.lookup b p = some r → s.lookup b p = some r
  /-- What is started has had no result. -/
  absent : ∀ {b p}, b.Lasting → .started b p ∈ events → st.lookup b p = none
  /-- What has a result then either had one or was started. -/
  stored_iff : ∀ {b p}, b.Lasting →
    (s.lookup b p ≠ none ↔ st.lookup b p ≠ none ∨ .started b p ∈ events)
  /-- What is run has a result then, and it is run in the memory. -/
  invoked : ∀ {b p}, b.Lasting → .invoked b p ∈ events →
    s.lookup b p ≠ none ∧ ∃ c : C, InMemory memory c ∧ place c = p
  started : ∀ {b p}, .started b p ∈ events → .invoked b p ∈ events
  nodup : ∀ {b}, b.Lasting → (Event.starts b events).Nodup
  /-- What is started yields a result to a lesser depth, or is a part of the grammar. -/
  answered : ∀ {b p}, b.Lasting → .started b p ∈ events →
    (∃ m < n, P.Answers C memory m b p) ∨ b.Within a ∧ P.Answers C memory n b p
  rounds : ∀ {tokens rounds}, .repeated tokens rounds ∈ events → rounds ≤ tokens + 1

namespace Account

variable {P : Program} {memory : Nat → List τ} {m n : Nat} {a b : Address}
  {st st' s s' : State C} {events first rest : List Event}

/-- A run without events that leaves the tables as they are. -/
theorem nil (hLookup : ∀ {b p}, b.Lasting → s.lookup b p = st.lookup b p) :
    Account P memory n a st s [] where
  kept hLasting hFound := (hLookup hLasting).trans hFound
  absent _ hMem := absurd hMem not_mem_nil
  stored_iff hLasting := by simp [hLookup hLasting]
  invoked _ hMem := absurd hMem not_mem_nil
  started hMem := absurd hMem not_mem_nil
  nodup _ := nodup_nil
  answered _ hMem := absurd hMem not_mem_nil
  rounds hMem := absurd hMem not_mem_nil

/-- Only what is found in the tables that last is accounted for. -/
theorem congr (h : Account P memory n a st s events)
    (hBefore : ∀ {b p}, b.Lasting → st'.lookup b p = st.lookup b p)
    (hAfter : ∀ {b p}, b.Lasting → s'.lookup b p = s.lookup b p) :
    Account P memory n a st' s' events where
  kept hLasting hFound := by
    rw [hBefore hLasting] at hFound
    rw [hAfter hLasting, h.kept hLasting hFound]
  absent hLasting hMem := (hBefore hLasting).trans (h.absent hLasting hMem)
  stored_iff hLasting := by rw [hAfter hLasting, hBefore hLasting, h.stored_iff hLasting]
  invoked hLasting hMem := by
    rw [hAfter hLasting]
    exact h.invoked hLasting hMem
  started := h.started
  nodup := h.nodup
  answered := h.answered
  rounds := h.rounds

/-- Two runs one after the other. What the first one has started is not started by the
second one, since it has a result then. -/
theorem append (h : Account P memory n a st s first) (h' : Account P memory n a s s' rest) :
    Account P memory n a st s' (first ++ rest) where
  kept hLasting hFound := h'.kept hLasting (h.kept hLasting hFound)
  absent := by
    intro b p hLasting hMem
    rcases mem_append.mp hMem with hFirst | hRest
    · exact h.absent hLasting hFirst
    · rcases hFound : st.lookup b p with _ | r
      · rfl
      · have hNone := h'.absent hLasting hRest
        rw [h.kept hLasting hFound] at hNone
        cases hNone
  stored_iff hLasting := by
    rw [h'.stored_iff hLasting, h.stored_iff hLasting, mem_append, or_assoc]
  invoked := by
    intro b p hLasting hMem
    rcases mem_append.mp hMem with hFirst | hRest
    · obtain ⟨hFound, hPlace⟩ := h.invoked hLasting hFirst
      exact ⟨(h'.stored_iff hLasting).mpr (.inl hFound), hPlace⟩
    · exact h'.invoked hLasting hRest
  started := by
    intro b p hMem
    rcases mem_append.mp hMem with hFirst | hRest
    · exact mem_append_left _ (h.started hFirst)
    · exact mem_append_right _ (h'.started hRest)
  nodup := by
    intro b hLasting
    rw [Event.starts_append]
    refine (h.nodup hLasting).append (h'.nodup hLasting) fun p hFirst hRest => ?_
    rw [Event.mem_starts_iff] at hFirst hRest
    exact (h.stored_iff hLasting).mpr (.inr hFirst) (h'.absent hLasting hRest)
  answered := by
    intro b p hLasting hMem
    rcases mem_append.mp hMem with hFirst | hRest
    · exact h.answered hLasting hFirst
    · exact h'.answered hLasting hRest
  rounds := by
    intro tokens rounds hMem
    rcases mem_append.mp hMem with hFirst | hRest
    · exact h.rounds hFirst
    · exact h'.rounds hRest

/-- The end of a repetition. -/
theorem repeated {tokens rounds : Nat} (h : Account P memory n a st s events)
    (hLe : rounds ≤ tokens + 1) :
    Account P memory n a st s (.repeated tokens rounds :: events) where
  kept := h.kept
  absent hLasting hMem := h.absent hLasting ((mem_cons.mp hMem).resolve_left (by simp))
  stored_iff hLasting := by simp [h.stored_iff hLasting]
  invoked hLasting hMem := h.invoked hLasting ((mem_cons.mp hMem).resolve_left (by simp))
  started hMem := mem_cons_of_mem _ (h.started ((mem_cons.mp hMem).resolve_left (by simp)))
  nodup := h.nodup
  answered hLasting hMem := h.answered hLasting ((mem_cons.mp hMem).resolve_left (by simp))
  rounds hMem := by
    rcases mem_cons.mp hMem with hEq | hMem
    · cases hEq
      exact hLe
    · exact h.rounds hMem

/-- A run of a part is one of the grammar. -/
theorem of_turn {t : Turn} (h : Account P memory n (a.turn t) st s events) :
    Account P memory n a st s events :=
  { h with
    answered := fun hLasting hMem => (h.answered hLasting hMem).imp_right fun hPart =>
      ⟨hPart.1.of_turn, hPart.2⟩ }

/-- What is started where references are followed less deeply. -/
theorem of_lt (h : Account P memory m b st s events) (hLt : m < n) :
    Account P memory n a st s events :=
  { h with
    answered := fun hLasting hMem => by
      rcases h.answered hLasting hMem with ⟨k, hLess, hAnswers⟩ | ⟨-, hAnswers⟩
      · exact .inl ⟨k, hLess.trans hLt, hAnswers⟩
      · exact .inl ⟨m, hLt, hAnswers⟩ }

theorem mono (h : Account P memory m a st s events) (hLe : m ≤ n) :
    Account P memory n a st s events := by
  rcases Nat.eq_or_lt_of_le hLe with rfl | hLt
  · exact h
  · exact h.of_lt hLt

/-- A run in a fresh scope: nothing that lasts is a part of the grammar there. -/
theorem of_fresh (h : Account P memory n .fresh st s events) :
    Account P memory n a st s events :=
  { h with
    answered := fun hLasting hMem => by
      rcases h.answered hLasting hMem with hLess | ⟨hWithin, -⟩
      · exact .inl hLess
      · exact absurd hWithin.scope_eq hLasting }

variable [LawfulInput C] {c : C} {g : Grammar} {r : Result C Value}

/-- The parser inside a memoised one does not come to start itself again at the place
where it runs, if the plain grammar yields no result to a lesser depth: a reference
would have to be followed to it, and it yields a result there to a lesser depth. -/
theorem not_started {t : Turn} (h : Account P memory n (a.turn t) st s events)
    (hLasting : a.Lasting) (hMemory : InMemory memory c)
    (hStored : ∀ root, P.stored? root a = some g)
    (hLeast : ∀ m < n, ∀ r, ¬P.YieldsAt m g c r) : .started a (place c) ∉ events := by
  intro hMem
  rcases h.answered hLasting hMem with hLess | hPart
  · obtain ⟨m, hLt, g', d, r, hStored', hMemory', hPlace, hYields⟩ := hLess
    obtain rfl := hMemory'.eq_of_place_eq hMemory hPlace
    have hGrammar := hStored' g
    rw [hStored g] at hGrammar
    cases hGrammar
    exact hLeast m hLt r hYields
  · exact a.not_within_turn t hPart.1

/-- A memoised parser that has no result for a place is run there, starts the parser
inside it, and stores the result. -/
theorem memoised {t : Turn} (h : Account P memory n (a.turn t) st s events)
    (hNone : st.lookup a (place c) = none) (hMemory : InMemory memory c)
    (hStored : a.Lasting → ∀ root, P.stored? root a = some g) (hYields : P.YieldsAt n g c r)
    (hLeast : ∀ m < n, ∀ r, ¬P.YieldsAt m g c r) :
    Account P memory n a st (s.store a (place c) r)
      (.invoked a (place c) :: .started a (place c) :: events) where
  kept := by
    intro b p r' hLasting hFound
    rw [State.lookup_store]
    split
    · rename_i hEq
      obtain ⟨rfl, rfl⟩ := hEq
      rw [hNone] at hFound
      cases hFound
    · exact h.kept hLasting hFound
  absent := by
    intro b p hLasting hMem
    rcases mem_cons.mp ((mem_cons.mp hMem).resolve_left (by simp)) with hEq | hMem
    · cases hEq
      exact hNone
    · exact h.absent hLasting hMem
  stored_iff := by
    intro b p hLasting
    rw [State.lookup_store]
    split
    · rename_i hEq
      obtain ⟨rfl, rfl⟩ := hEq
      simp
    · rename_i hNe
      rw [h.stored_iff hLasting]
      simp only [mem_cons, reduceCtorEq, false_or, Event.started.injEq]
      rw [or_iff_right (a := b = a ∧ p = place c) fun hEq => hNe ⟨hEq.1.symm, hEq.2.symm⟩]
  invoked := by
    intro b p hLasting hMem
    rw [State.lookup_store]
    split
    · rename_i hEq
      obtain ⟨rfl, rfl⟩ := hEq
      exact ⟨Option.some_ne_none r, c, hMemory, rfl⟩
    · rename_i hNe
      simp only [mem_cons, reduceCtorEq, false_or, Event.invoked.injEq] at hMem
      exact h.invoked hLasting (hMem.resolve_left fun hEq => hNe ⟨hEq.1.symm, hEq.2.symm⟩)
  started := by
    intro b p hMem
    rcases mem_cons.mp ((mem_cons.mp hMem).resolve_left (by simp)) with hEq | hMem
    · cases hEq
      exact mem_cons_self
    · exact mem_cons_of_mem _ (mem_cons_of_mem _ (h.started hMem))
  nodup := by
    intro b hLasting
    by_cases hEq : a = b
    · subst hEq
      have hStarts : Event.starts a (.invoked a (place c) :: .started a (place c) :: events) =
          place c :: Event.starts a events := by simp [Event.starts]
      rw [hStarts, nodup_cons, Event.mem_starts_iff]
      exact ⟨h.not_started hLasting hMemory (hStored hLasting) hLeast, h.nodup hLasting⟩
    · have hStarts : Event.starts b (.invoked a (place c) :: .started a (place c) :: events) =
          Event.starts b events := by simp [Event.starts, hEq]
      rw [hStarts]
      exact h.nodup hLasting
  answered := by
    intro b p hLasting hMem
    rcases mem_cons.mp ((mem_cons.mp hMem).resolve_left (by simp)) with hEq | hMem
    · cases hEq
      exact .inr ⟨.refl a, g, c, r, hStored hLasting, hMemory, rfl, hYields⟩
    · exact h.of_turn.answered hLasting hMem
  rounds hMem :=
    h.rounds ((mem_cons.mp ((mem_cons.mp hMem).resolve_left (by simp))).resolve_left (by simp))

omit [LawfulInput C] in
/-- A memoised parser that has a result for a place only looks it up. -/
theorem found (hFound : st.lookup a (place c) ≠ none) (hMemory : InMemory memory c)
    (hLookup : ∀ {b p}, s.lookup b p = st.lookup b p) :
    Account P memory n a st s [.invoked a (place c)] where
  kept hLasting h := hLookup.trans h
  absent _ hMem := absurd (mem_singleton.mp hMem) (by simp)
  stored_iff _ := by simp [hLookup]
  invoked _ hMem := by
    cases mem_singleton.mp hMem
    rw [hLookup]
    exact ⟨hFound, c, hMemory, rfl⟩
  started hMem := absurd (mem_singleton.mp hMem) (by simp)
  nodup _ := nodup_nil
  answered _ hMem := absurd (mem_singleton.mp hMem) (by simp)
  rounds hMem := absurd (mem_singleton.mp hMem) (by simp)

end Account

end

end Packrat

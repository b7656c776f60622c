import Packrat.Proofs.Depth
import Packrat.Proofs.Memory
import Packrat.Session

/-!
# Sound tables

A stored result is looked up by an address and a place. In a sound state the
address leads to the grammar whose result was stored, and the result is what this
grammar yields, made plain, at the only cursor that has the place.

* `Program.stored?`: the grammar whose results are stored at an address;
* `Program.At`: a grammar stands at an address;
* `Program.Sound`: all stored results are those of the plain grammars;
* `Sound.store`, `Sound.clear`, `Sound.fresh`, `Sound.restore`: what the operations
  on the state keep.
-/

namespace Packrat

open Input List

/-! ## Addresses -/

/-- The grammar whose results are stored the given number of turns away, the first
turn first. -/
def Grammar.stored? : Grammar → List Turn → Option Grammar
  | memo g, [] => some g
  | memo g, .inside :: path => g.stored? path
  | both g _, .left :: path | seqRight g _, .left :: path | seqLeft g _, .left :: path
  | apply g _, .left :: path | orElse g _, .left :: path | marked _ g _, .left :: path =>
    g.stored? path
  | both _ h, .right :: path | seqRight _ h, .right :: path | seqLeft _ h, .right :: path
  | apply _ h, .right :: path | orElse _ h, .right :: path | marked _ _ h, .right :: path =>
    h.stored? path
  | map _ g, path | convert _ _ _ g, path | bind g _, path | label _ g, path
  | lexeme _ g, path | optional g, path | option _ g, path | notFollowedBy g, path
  | many g, path | many1 g, path | skipMany g, path | skipMany1 g, path | tally _ g, path =>
    g.stored? path
  | _, _ => none

namespace Program

/-- The grammar whose results are stored at an address, where the expression that
is being run is given. -/
def stored? (P : Program) (root : Grammar) (a : Address) : Option Grammar :=
  match a.scope with
  | .named name => (P.shared.lookup name).bind (·.stored? a.path.reverse)
  | .current => root.stored? a.path.reverse

/-- A grammar stands at an address: the addresses that go on from there are those
of its parts. -/
def At (P : Program) (root : Grammar) (a : Address) (g : Grammar) : Prop :=
  ∀ path : List Turn, P.stored? root ⟨a.scope, path.reverse ++ a.path⟩ = g.stored? path

namespace At

variable {P : Program} {root g h : Grammar} {a : Address}

theorem fresh : P.At g .fresh g := by
  intro path
  simp [stored?, Address.fresh]

theorem named {name : String} (hLookup : P.shared.lookup name = some g) :
    P.At root (.named name) g := by
  intro path
  simp [stored?, Address.named, hLookup]

/-- A part that stands one turn further on. -/
theorem turn (t : Turn) (hAt : P.At root a g)
    (hPart : ∀ path, g.stored? (t :: path) = h.stored? path) : P.At root (a.turn t) h := by
  intro path
  rw [← hPart, ← hAt (t :: path), reverse_cons, append_assoc]
  rfl

theorem stored?_eq (hAt : P.At root a (.memo g)) : P.stored? root a = some g :=
  hAt []

end At

end Program

/-! ## Stored results -/

section

variable {C τ σ : Type} [Input C τ σ] [InputView C τ σ] [Token τ] [ToValue τ] [ToValue σ]

/-- All stored results are what the grammars at their addresses yield, at the
cursors in memory that have their places. -/
def Program.Sound (P : Program) (memory : Nat → List τ) (root : Grammar) (st : State C) : Prop :=
  ∀ ⦃a c r⦄, InMemory memory c → st.lookup a (place c) = some r →
    ∃ g, P.stored? root a = some g ∧ P.Yields g c r

namespace Program.Sound

variable {P : Program} {memory : Nat → List τ} {root root' g : Grammar} {st st' : State C}

theorem empty : P.Sound memory root ({} : State C) := by
  intro ⟨scope, path⟩ c r _ hLookup
  cases scope <;> simp [State.lookup, State.table, State.tables, Tables.table] at hLookup

/-- Soundness is about stored results alone. -/
theorem of_lookup_eq (h : P.Sound memory root st)
    (hLookup : ∀ a p, st'.lookup a p = st.lookup a p) : P.Sound memory root st' := by
  intro a c r hMemory hFound
  rw [hLookup] at hFound
  exact h hMemory hFound

theorem note (h : P.Sound memory root st) (x : Record) : P.Sound memory root (st.note x) :=
  h.of_lookup_eq fun a p => st.lookup_note a p x

theorem tally (h : P.Sound memory root st) (name : String) :
    P.Sound memory root (st.tally name) :=
  h.of_lookup_eq fun a p => st.lookup_tally a p name

theorem setLog (h : P.Sound memory root st) (log : List Record) :
    P.Sound memory root { st with log } :=
  h.of_lookup_eq fun a p => st.lookup_setLog a p log

theorem clear (h : P.Sound memory root st) (a : Address) : P.Sound memory root (st.clear a) := by
  intro b c r hMemory hFound
  rw [State.lookup_clear] at hFound
  split at hFound
  · cases hFound
  · exact h hMemory hFound

/-- Storing what the grammar at an address yields. The place is that of one cursor
only, so nothing is claimed of any other one. -/
theorem store [LawfulInput C] (h : P.Sound memory root st) {a : Address} {c : C}
    {r : Result C Value} (hStored : P.stored? root a = some g) (hMemory : InMemory memory c)
    (hYields : P.Yields g c r) : P.Sound memory root (st.store a (place c) r) := by
  intro b d r' hMemory' hFound
  rw [State.lookup_store] at hFound
  split at hFound
  · rename_i hEq
    obtain ⟨rfl, hPlace⟩ := hEq
    obtain rfl := hMemory.eq_of_place_eq hMemory' hPlace
    cases hFound
    exact ⟨g, hStored, hYields⟩
  · exact h hMemory' hFound

/-- A fresh scope, for whatever expression it is, has only the results of the named
parsers. -/
theorem fresh (h : P.Sound memory root st) : P.Sound memory root' { st with current := ∅ } := by
  intro ⟨scope, path⟩ c r hMemory hFound
  rw [State.lookup_fresh] at hFound
  cases scope with
  | named name => exact h hMemory hFound
  | current => cases hFound

/-- Where a fresh scope ends, the results of the scope around it are found again. -/
theorem restore (h : P.Sound memory root st) (h' : P.Sound memory root' st') :
    P.Sound memory root { st' with current := st.current } := by
  intro ⟨scope, path⟩ c r hMemory hFound
  rw [State.lookup_restore] at hFound
  cases scope with
  | named name => exact h' hMemory hFound
  | current => exact h hMemory hFound

end Program.Sound

end

end Packrat

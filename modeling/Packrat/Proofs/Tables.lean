import Packrat.Parser.Memo

/-!
# Storing and forgetting results

What is found in the tables of a state after each operation on it, and what the
parsers do that look there.

* `State.lookup_store`, `State.lookup_clear`: one result is stored, the results of
  one parser are forgotten, and all others stay;
* `State.lookup_fresh`, `State.lookup_restore`: entering a fresh scope and leaving
  it, which touches the results of the scope alone;
* `Parser.memo_eq_some_iff`, `Parser.inFreshScope_eq_some_iff`: the ways in which a
  memoised parser and one in a fresh scope come to a result.
-/

namespace Packrat

open Std

namespace Tables

variable {C : Type}

theorem table_store (ts : Tables C) (a b : Address) (p : Place) (r : Result C Value) :
    (ts.store a p r).table b = if a = b then (ts.table a).insert p r else ts.table b := by
  unfold store table
  rw [TreeMap.getElem?_alter]
  by_cases hEq : a = b
  · subst hEq
    simp
  · have hCompare : compare a b ≠ .eq := fun h => hEq (LawfulEqOrd.eq_of_compare h)
    rw [if_neg hCompare, if_neg hEq]

theorem table_erase (ts : Tables C) (a b : Address) :
    table (ts.erase a) b = if a = b then ∅ else ts.table b := by
  unfold table
  rw [TreeMap.getElem?_erase]
  by_cases hEq : a = b
  · subst hEq
    simp
  · have hCompare : compare a b ≠ .eq := fun h => hEq (LawfulEqOrd.eq_of_compare h)
    rw [if_neg hCompare, if_neg hEq]

end Tables

namespace State

variable {C : Type} (st : State C) (a b : Address) (p q : Place)

theorem table_store (r : Result C Value) :
    (st.store a p r).table b = if a = b then (st.table a).insert p r else st.table b := by
  obtain ⟨scope, path⟩ := a
  obtain ⟨scope', path'⟩ := b
  cases scope <;> cases scope' <;>
    simp [store, mapTables, table, tables, Tables.table_store]

theorem lookup_store (r : Result C Value) :
    (st.store a p r).lookup b q = if a = b ∧ p = q then some r else st.lookup b q := by
  unfold lookup
  rw [table_store]
  by_cases hAddress : a = b
  · subst hAddress
    rw [if_pos rfl, TreeMap.getElem?_insert]
    by_cases hPlace : p = q
    · subst hPlace
      simp
    · have hCompare : compare p q ≠ .eq := fun h => hPlace (LawfulEqOrd.eq_of_compare h)
      rw [if_neg hCompare, if_neg fun h => hPlace h.2]
  · rw [if_neg hAddress, if_neg fun h => hAddress h.1]

theorem lookup_clear : (st.clear a).lookup b p = if a = b then none else st.lookup b p := by
  have hTable : (st.clear a).table b = if a = b then ∅ else st.table b := by
    obtain ⟨scope, path⟩ := a
    obtain ⟨scope', path'⟩ := b
    cases scope <;> cases scope' <;>
      simp [clear, mapTables, table, tables, Tables.table_erase]
  unfold lookup
  rw [hTable]
  by_cases hEq : a = b
  · rw [if_pos hEq, if_pos hEq, TreeMap.getElem?_emptyc]
  · rw [if_neg hEq, if_neg hEq]

@[simp]
theorem lookup_note (x : Record) : (st.note x).lookup a p = st.lookup a p := by
  obtain ⟨scope, path⟩ := a
  cases scope <;> rfl

@[simp]
theorem lookup_tally (name : String) : (st.tally name).lookup a p = st.lookup a p := by
  obtain ⟨scope, path⟩ := a
  cases scope <;> rfl

@[simp]
theorem lookup_setLog (log : List Record) : { st with log }.lookup a p = st.lookup a p := by
  obtain ⟨scope, path⟩ := a
  cases scope <;> rfl

/-- A fresh scope starts with the results of the named parsers alone. -/
theorem lookup_fresh : { st with current := ∅ }.lookup a p =
    match a.scope with
    | .named _ => st.lookup a p
    | .current => none := by
  obtain ⟨scope, path⟩ := a
  cases scope with
  | named name => rfl
  | current => simp [lookup, table, tables, Tables.table]

/-- Where a fresh scope ends, the results of the named parsers are kept. -/
theorem lookup_restore (st' : State C) : { st' with current := st.current }.lookup a p =
    match a.scope with
    | .named _ => st'.lookup a p
    | .current => st.lookup a p := by
  obtain ⟨scope, path⟩ := a
  cases scope <;> rfl

end State

namespace Parser

variable {C τ σ α : Type} {c : C} {st s : State C}

/-- A memoised parser finds a result, or it runs and stores what it gives. -/
theorem memo_eq_some_iff [Input C τ σ] {a : Address} {p : Parser C Value} {r : Result C Value} :
    memo a p c st = some (r, s) ↔
      (st.lookup a (Input.place c) = some r ∧ s = st.note (.memoHit (Input.position c))) ∨
        (st.lookup a (Input.place c) = none ∧
          ∃ after, p c st = some (r, after) ∧ s = after.store a (Input.place c) r) := by
  unfold memo
  rcases st.lookup a (Input.place c) with _ | found
  · rcases p c st with _ | ⟨result, after⟩
    · simp
    · constructor
      · intro h
        cases h
        exact .inr ⟨rfl, after, rfl, rfl⟩
      · rintro (⟨h, -⟩ | ⟨-, _, h, rfl⟩)
        · cases h
        · cases h
          rfl
  · constructor
    · intro h
      cases h
      exact .inl ⟨rfl, rfl⟩
    · rintro (⟨h, rfl⟩ | ⟨h, -⟩)
      · cases h
        rfl
      · cases h

theorem inFreshScope_eq_some_iff {p : Parser C α} {r : Result C α} :
    inFreshScope p c st = some (r, s) ↔
      ∃ after, p c { st with current := ∅ } = some (r, after) ∧
        s = { after with current := st.current } := by
  unfold inFreshScope
  rcases p c { st with current := ∅ } with _ | ⟨result, after⟩
  · simp
  · constructor
    · intro h
      cases h
      exact ⟨after, rfl, rfl⟩
    · rintro ⟨_, h, rfl⟩
      cases h
      rfl

end Parser

end Packrat

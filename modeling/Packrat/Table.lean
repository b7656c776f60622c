import Packrat.Error
import Packrat.Value
import Std.Data.TreeMap

/-!
# Tables of stored results

Each memoised parser has a table of its own, which is found by the parser's
address, that is, by the way to it from the root of the expression that contains
it. Places and addresses are ordered, so that a table is a search tree.

- `Address`: where a memoised parser stands;
- `Table`: the results of one memoised parser, by place;
- `Tables`: the tables of some memoised parsers, by address.
-/

namespace Packrat

open Std

/-! ## Places -/

namespace Place

instance : Ord Place where
  compare := compareLex (compareOn (·.source.buffer))
    (compareLex (compareOn (·.source.size)) (compareOn (·.position)))

instance : TransOrd Place :=
  inferInstanceAs (TransCmp (compareLex _ (compareLex _ _)))

instance : LawfulEqOrd Place where
  eq_of_compare {a b} h := by
    obtain ⟨hBuffer, h⟩ := compareLex_eq_eq.mp h
    obtain ⟨hSize, hPosition⟩ := compareLex_eq_eq.mp h
    have hBuffer : a.source.buffer = b.source.buffer := LawfulEqOrd.eq_of_compare hBuffer
    have hSize : a.source.size = b.source.size := LawfulEqOrd.eq_of_compare hSize
    have hPosition : a.position = b.position := LawfulEqOrd.eq_of_compare hPosition
    obtain ⟨⟨_, _⟩, _⟩ := a
    obtain ⟨⟨_, _⟩, _⟩ := b
    simp_all

end Place

/-! ## Addresses -/

/-- One step from an expression to a part of it. Expressions with one part need
no step, except a memoised one, which has an address itself. -/
inductive Turn where
  | left
  | right
  | inside
  deriving DecidableEq, Repr

/-- Where an expression is rooted: in a named parser, which lasts for the whole
session, or in an expression that is built for one run. -/
inductive Scope where
  | named (name : String)
  | current
  deriving DecidableEq, Repr

/-- The place of a part in the expression of a scope, by the last step first. -/
structure Address where
  scope : Scope
  path : List Turn
  deriving DecidableEq, Repr

namespace Turn

def index : Turn → Nat
  | left => 0
  | right => 1
  | inside => 2

instance : Ord Turn where
  compare := compareOn index

instance : TransOrd Turn :=
  inferInstanceAs (TransCmp (compareOn _))

instance : LawfulEqOrd Turn where
  eq_of_compare {a b} h := by
    have hIndex : a.index = b.index := LawfulEqOrd.eq_of_compare h
    cases a <;> cases b <;> simp_all [index]

end Turn

namespace Scope

def name? : Scope → Option String
  | named name => some name
  | current => none

instance : Ord Scope where
  compare := compareOn name?

instance : TransOrd Scope :=
  inferInstanceAs (TransCmp (compareOn _))

instance : LawfulEqOrd Scope where
  eq_of_compare {a b} h := by
    have hName : a.name? = b.name? := LawfulEqOrd.eq_of_compare h
    cases a <;> cases b <;> simp_all [name?]

end Scope

namespace Address

instance : Ord Address where
  compare := compareLex (compareOn (·.scope)) (compareOn (·.path))

instance : TransOrd Address :=
  inferInstanceAs (TransCmp (compareLex _ _))

instance : LawfulEqOrd Address where
  eq_of_compare {a b} h := by
    obtain ⟨hScope, hPath⟩ := compareLex_eq_eq.mp h
    have hScope : a.scope = b.scope := LawfulEqOrd.eq_of_compare hScope
    have hPath : a.path = b.path := LawfulEqOrd.eq_of_compare hPath
    obtain ⟨_, _⟩ := a
    obtain ⟨_, _⟩ := b
    simp_all

/-- The root of an expression that is built for one run. -/
def fresh : Address :=
  ⟨.current, []⟩

/-- The root of a named parser. -/
def named (name : String) : Address :=
  ⟨.named name, []⟩

def turn (a : Address) (t : Turn) : Address :=
  { a with path := t :: a.path }

end Address

/-! ## Tables -/

/-- The results of a memoised parser, by the place where it was run. -/
abbrev Table (C : Type) := TreeMap Place (Result C Value)

/-- The tables of some memoised parsers, by address. -/
abbrev Tables (C : Type) := TreeMap Address (Table C)

def Table.describe {C : Type} (t : Table C) : String :=
  Quoted.record "Memo" [("entries", toString t.size)]

namespace Tables

variable {C : Type}

/-- The table at an address, which is empty until a result is stored. -/
def table (ts : Tables C) (a : Address) : Table C :=
  ts[a]?.getD ∅

def store (ts : Tables C) (a : Address) (p : Place) (r : Result C Value) : Tables C :=
  ts.alter a fun t => some ((t.getD ∅).insert p r)

end Tables

end Packrat

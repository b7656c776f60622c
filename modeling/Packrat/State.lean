import Packrat.Table
import Packrat.Trace

/-!
# The state of a run

What parsers share while they run: the tables of the memoised parsers, the
counters, and the record of the run.

- `State`: the state, with the operations on it.
-/

namespace Packrat

/-- The state of a run: the tables of the named parsers, those of the expression
that is being run, the counters, and the record with its last entry first. -/
structure State (C : Type) where
  named : Tables C := ∅
  current : Tables C := ∅
  counts : Std.TreeMap String Nat := ∅
  log : List Record := []

namespace State

variable {C : Type}

/-- The tables in which the addresses of a scope are looked up. -/
def tables (st : State C) : Scope → Tables C
  | .named _ => st.named
  | .current => st.current

/-- Change the tables in which the addresses of a scope are looked up. -/
def mapTables (st : State C) (f : Tables C → Tables C) : Scope → State C
  | .named _ => { st with named := f st.named }
  | .current => { st with current := f st.current }

def table (st : State C) (a : Address) : Table C :=
  (st.tables a.scope).table a

/-- The stored result of a memoised parser at a place. -/
def lookup (st : State C) (a : Address) (p : Place) : Option (Result C Value) :=
  (st.table a)[p]?

def store (st : State C) (a : Address) (p : Place) (r : Result C Value) : State C :=
  st.mapTables (·.store a p r) a.scope

def clear (st : State C) (a : Address) : State C :=
  st.mapTables (·.erase a) a.scope

def note (st : State C) (r : Record) : State C :=
  { st with log := r :: st.log }

def tally (st : State C) (name : String) : State C :=
  { st with counts := st.counts.insert name (st.counts.getD name 0 + 1) }

end State

end Packrat

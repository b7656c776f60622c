import Packrat.Program

/-!
# Sessions

A session runs grammars one after the other. The shared parsers of its program
and the counters last from run to run; the record is of one run.

- `Session.parse`: one run, with its report;
- `Session.table`, `Session.clear`: the results that a shared parser has stored.
-/

namespace Packrat

/-- A program and the state that its runs leave behind. -/
structure Session (C : Type) where
  program : Program
  state : State C := {}

/-- What a run gives: its result, and its record from first to last. -/
structure Report (C : Type) where
  result : Result C Value
  trace : List Record

namespace Session

variable {C τ σ : Type}

def parse [Input C τ σ] [Token τ] [ToValue τ] [ToValue σ]
    (session : Session C) (g : Grammar) (c : C) : Option (Report C × Session C) :=
  match session.program.run g c { session.state with log := [] } with
  | some (result, state) => some (⟨result, state.log.reverse⟩, { session with state })
  | none => none

/-- The results stored by a shared parser that is memoised. -/
def table (session : Session C) (name : String) : Table C :=
  session.state.table (.named name)

def clear (session : Session C) (name : String) : Session C :=
  { session with state := session.state.clear (.named name) }

/-- The counters that have been raised, with their values. -/
def counts (session : Session C) : List (String × Nat) :=
  session.state.counts.toList

end Session

end Packrat

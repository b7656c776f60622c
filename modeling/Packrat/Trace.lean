import Packrat.Error

/-!
# The record of a run

A run leaves a record of what happened in it, in order: its start, the
alternatives given up, the stored results used, the repetitions that stalled,
its outcome, and its end.

- `Record`: one entry, with its level and its wording.
-/

namespace Packrat

/-- How much attention an entry calls for. -/
inductive Level where
  | trace
  | warn
  deriving DecidableEq, Repr

def Level.name : Level → String
  | trace => "TRACE"
  | warn => "WARN"

/-- One entry of the record of a run. -/
inductive Record where
  /-- The run starts at a position. -/
  | entered (start : Nat)
  /-- The first of two alternatives, tried at a position, has failed. -/
  | backtracked (position failedAt : Nat)
  /-- A memo table holds the result for a position. -/
  | memoHit (position : Nat)
  /-- A repeated parser has succeeded at a position without leaving it. -/
  | stalled (position : Nat)
  /-- The run has succeeded and leaves the cursor at a position. -/
  | succeeded (stop : Nat)
  /-- The run has failed, at a position and with a failure in words. -/
  | failed (position : Nat) (error : String)
  | exited
  deriving DecidableEq, Repr

namespace Record

def level : Record → Level
  | stalled _ => .warn
  | _ => .trace

/-- The wording of an entry, or the name of the run. -/
def message : Record → String
  | entered _ => "run"
  | backtracked _ _ => "backtracking to second alternative"
  | memoHit _ => "memo hit"
  | stalled _ => "repeated parser succeeded without consuming input"
  | succeeded _ => "parse succeeded"
  | failed _ _ => "parse failed"
  | exited => "exit"

end Record

end Packrat

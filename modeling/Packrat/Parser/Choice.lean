import Packrat.Parser.Basic

/-!
# Parsers that may fail

- `orElse`: the second of two alternatives is tried where the first has failed,
  from the cursor where that one started;
- `optional`, `option`: a failure reads nothing;
- `marked`: once a marker is read, what follows it is mandatory;
- `notFollowedBy`: a failure is a success, and the other way round.
-/

namespace Packrat.Parser

variable {C τ σ α β : Type}

/-- The first alternative, or if it fails the second one. -/
def orElse [Input C τ σ] (p q : Parser C α) : Parser C α :=
  fun c st => match p c st with
    | none => none
    | some (.ok success, st) => some (.ok success, st)
    | some (.error first, st) =>
      match q c (st.note (.backtracked (Input.position c) first.position)) with
      | none => none
      | some (.ok success, st) => some (.ok success, st)
      | some (.error second, st) => some (.error (first.merge second c), st)

def optional : Parser C α → Parser C (Option α) :=
  onResult fun c result => match result with
    | .ok (v, rest) => .ok (some v, rest)
    | .error _ => .ok (none, c)

def option (default : α) : Parser C α → Parser C α :=
  onResult fun c result => match result with
    | .ok success => .ok success
    | .error _ => .ok (default, c)

/-- What follows a marker, or a fixed value where there is no marker. -/
def marked (default : β) (marker : Parser C α) (body : Parser C β) : Parser C β :=
  fun c st => match marker c st with
    | none => none
    | some (.ok (_, rest), st) => body rest st
    | some (.error _, st) => some (.ok (default, c), st)

/-- Succeed where a parser fails, and read nothing. -/
def notFollowedBy [Input C τ σ] : Parser C α → Parser C Unit :=
  onResult fun c result => match result with
    | .ok _ => .error (.new c .unwantedMatch)
    | .error _ => .ok ((), c)

end Packrat.Parser

import Packrat.Parser.Basic

/-!
# Parsers with a state

- `memo`: a parser whose results are stored and used again;
- `inFreshScope`: a parser that is built anew, so that its memoised parts start
  with empty tables;
- `tally`: a parser whose runs are counted;
- `run`: a parser whose run is recorded.
-/

namespace Packrat.Parser

variable {C τ σ α : Type}

/-- Use the stored result for a place, or run the parser and store its result.
The table is looked up once, before the parser runs. -/
def memo [Input C τ σ] (a : Address) (p : Parser C Value) : Parser C Value :=
  fun c st => match st.lookup a (Input.place c) with
    | some result => some (result, st.note (.memoHit (Input.position c)))
    | none => match p c st with
      | none => none
      | some (result, st) => some (result, st.store a (Input.place c) result)

/-- Run a parser with no stored results of its own, and drop those that it
stores. -/
def inFreshScope (p : Parser C α) : Parser C α :=
  fun c st => match p c { st with current := ∅ } with
    | none => none
    | some (result, after) => some (result, { after with current := st.current })

/-- Run a parser and add one to a counter first. -/
def tally (name : String) (p : Parser C α) : Parser C α :=
  fun c st => p c (st.tally name)

/-- The last entries of a run that had the given result. -/
def ending [Input C τ σ] : Result C α → Record
  | .ok (_, rest) => .succeeded (Input.position rest)
  | .error e => .failed e.position e.text

/-- Run a parser between the first and the last entries of a record. -/
def run [Input C τ σ] (p : Parser C α) : Parser C α :=
  fun c st => match p c (st.note (.entered (Input.position c))) with
    | none => none
    | some (result, st) => some (result, (st.note (ending result)).note .exited)

end Packrat.Parser

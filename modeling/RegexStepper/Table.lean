import RegexStepper.Playback

/-!
# Tables

The transitions of an automaton and the history of a playback, as tables. A table is a list of
column names and rows of as many cells.
-/

namespace RegexStepper

/-- What stands in a cell. -/
inductive Cell where
  | number (n : Nat)
  | text (s : String)
  | flag (b : Bool)
deriving DecidableEq, Repr

/-- Named columns and rows of cells. -/
structure Table where
  columns : List String
  rows : List (List Cell)
deriving DecidableEq, Repr

namespace Table

/-- One row a transition: where it leaves, on what, where it leads. -/
def ofTransitions (A : Automaton) : Table where
  columns := ["From", "Symbol", "To"]
  rows := A.transitions.map fun t =>
    [.text (stateName t.source), .text t.label, .text (stateName t.target)]

end Table

/-- What is known of one entry of a history. -/
structure HistoryRow where
  step : Nat
  consumed : String
  active : List Int
  accepting : Bool
deriving DecidableEq, Repr

namespace HistoryRow

/-- The sign of the empty set. -/
def emptySign : String := "∅"

/-- The names of the active states. -/
def activeText (r : HistoryRow) : String :=
  if r.active.isEmpty then emptySign else ", ".intercalate (r.active.map stateName)

/-- The cells of a row. -/
def cells (r : HistoryRow) : List Cell :=
  [.number r.step, .text r.consumed, .text r.activeText, .flag r.accepting]

end HistoryRow

namespace Playback

variable (p : Playback)

/-- What led to entry `step`: nothing, or the character before it. -/
def consumedAt : Nat → Except Fault String
  | 0 => .ok epsilonSign
  | step + 1 =>
    match p.text[step]? with
    | some c => .ok c.toString
    | none => .error (.noSuchCharacter step)

/-- The row of an entry. -/
def historyRow (active : ActiveSet) (step : Nat) : Except Fault HistoryRow :=
  return {
    step
    consumed := ← p.consumedAt step
    active := active.ids
    accepting := active.hasAccepting }

/-- One row an entry of the history. -/
def historyRows : Except Fault (List HistoryRow) :=
  p.history.toList.zipIdx.mapM fun (active, step) => p.historyRow active step

end Playback

/-- The table of a playback's history. -/
def Table.ofHistory (p : Playback) : Except Fault Table :=
  return {
    columns := ["Step", "Consumed", "Active States", "Accepting"]
    rows := (← p.historyRows).map HistoryRow.cells }

end RegexStepper

import RegexStepper.Drawing.Dot
import RegexStepper.Playback

/-!
# Drawing an automaton

`Drawing.statements` describes an automaton as a graph: one node a state, one edge a transition, in
the automaton's order, and an arrow into the start state. The active states are filled, in another
colour if they accept and the text is accepted; the transitions that have just fired are
highlighted, as is every other one that equals one of them.
-/

namespace RegexStepper

/-- What a drawing brings out. -/
structure Highlight where
  /-- The ids of the active states. -/
  active : List Int
  /-- The transitions that have just fired. -/
  fired : List Transition
  /-- The text is accepted. -/
  accepted : Bool
deriving DecidableEq, Repr

/-- Nothing brought out. -/
def Highlight.none : Highlight :=
  ⟨[], [], false⟩

namespace Drawing

open Dot (Attribute Statement)

/-- The fill of an active state. -/
def activeColour : String := "#f59e0b"

/-- The fill of an active accepting state when the text is accepted. -/
def acceptedColour : String := "#10b981"

/-- The colour of a transition that has just fired. -/
def firedColour : String := "#f59e0b"

/-- The colour of a transition that consumes nothing. -/
def epsilonColour : String := "#8b5cf6"

/-- The settings of every drawing: its size, its letters and its direction. -/
def settings : List Statement :=
  [.setting ⟨"size", "8,4"⟩,
   .defaults "node" [⟨"fontsize", "10"⟩],
   .defaults "edge" [⟨"fontsize", "10"⟩],
   .defaults "graph" [⟨"rankdir", "LR"⟩]]

/-- The outline of a state. -/
def shape (s : State) : String :=
  if s.accepting then "doublecircle" else "circle"

/-- The fill of a state, if it has one. -/
def fill? (h : Highlight) (s : State) : Option String :=
  if h.active.contains s.id then
    some (if h.accepted && s.accepting then acceptedColour else activeColour)
  else none

/-- The node of a state. -/
def node (h : Highlight) (s : State) : Statement :=
  let look := match fill? h s with
    | some colour => [⟨"fillcolor", colour⟩, ⟨"shape", shape s⟩, ⟨"style", "filled"⟩]
    | none => [⟨"shape", shape s⟩]
  .node (toString s.id) (⟨"label", stateName s.id⟩ :: look)

/-- The colour of a transition, if it has one. -/
def colour? (h : Highlight) (t : Transition) : Option String :=
  if h.fired.contains t then some firedColour
  else if t.isEpsilon then some epsilonColour
  else none

/-- The edge of a transition. -/
def edge (h : Highlight) (t : Transition) : Statement :=
  let colour := (colour? h t).toList.map fun colour => ⟨"color", colour⟩
  let width := if h.fired.contains t then [⟨"penwidth", "2"⟩] else []
  let style := if t.isEpsilon then [⟨"style", "dashed"⟩] else []
  .edge (toString t.source) (toString t.target)
    (⟨"label", t.label⟩ :: (colour ++ width ++ style))

/-- An arrow from nowhere into the start state. -/
def entry (A : Automaton) : List Statement :=
  [.node "" [⟨"shape", "none"⟩], .edge "" (toString A.start.id) []]

/-- The statements of a drawing. -/
def statements (A : Automaton) (h : Highlight) : List Statement :=
  settings ++ entry A ++ A.states.toList.map (node h) ++ A.transitions.map (edge h)

/-- The drawing of an automaton, as text. -/
def source (A : Automaton) (h : Highlight) : String :=
  Dot.render (statements A h)

end Drawing

/-- What the drawing of a playback brings out. -/
def Playback.highlight (p : Playback) : Except Fault Highlight :=
  return { active := (← p.current).ids, fired := ← p.fired, accepted := ← p.isAccepted }

/-- The drawing of a playback, as text. -/
def Playback.drawing (p : Playback) : Except Fault String :=
  Drawing.source p.automaton <$> p.highlight

end RegexStepper

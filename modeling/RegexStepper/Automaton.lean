import RegexStepper.Automaton.ActiveSet
import RegexStepper.Automaton.Reach
import RegexStepper.Fault
import RegexStepper.SignedIndex

/-!
# Automata

An `Automaton` has a start state, a final state, its states in order and its transitions in order.
It may be made by hand, so nothing ties an id to the place of its state: the state with number `i`
is the one stored at the signed position `i`, and a look-up can fail.

`close` and `step` move sets of states: closing follows the transitions that consume nothing,
stepping takes the transitions on one symbol and closes. The index of the transitions is part of
the automaton and always agrees with them (`outgoing_eq_filter`).
-/

namespace RegexStepper

/-- A nondeterministic automaton. -/
structure Automaton where
  start : State
  final : State
  states : Array State
  transitions : List Transition
  edges : OutEdges := OutEdges.ofList transitions
  edges_eq : edges = OutEdges.ofList transitions := by rfl

namespace Automaton

/-- The state at a signed position of a state list. -/
def stateAt (states : Array State) (i : Int) : Except Fault State :=
  match SignedIndex.get? states i with
  | some s => .ok s
  | none => .error (Fault.ofIndex .noSuchState i)

variable (A : Automaton)

/-- The state with number `i`. -/
def state (i : Int) : Except Fault State :=
  stateAt A.states i

/-- The transitions that leave `id` on `symbol`, in order. -/
def outgoing (id : Int) (symbol : Symbol) : List Transition :=
  A.edges.leaving id symbol

/-- The accepting states, in order. -/
def acceptStates : List State :=
  A.states.toList.filter State.accepting

/-- The symbols on transitions, ascending by code point and without repetition. -/
def alphabet : List String :=
  (Std.TreeSet.ofList (A.transitions.filterMap (·.symbol))).toList

/-- The number of states. -/
def stateCount : Nat :=
  A.states.size

/-- The number of transitions. -/
def transitionCount : Nat :=
  A.transitions.length

/-- Automata are the same when they agree part by part, states by their ids alone. -/
def same (A B : Automaton) : Bool :=
  A.start.same B.start && A.final.same B.final &&
    A.states.toList.map State.id == B.states.toList.map State.id &&
    A.transitions == B.transitions

/-! ## Moving sets of states -/

/-- The states with the given numbers, as a set. Numbers that differ can name one state, and states
of an automaton made by hand can share an id; which of those is kept is an arbitrary choice, here
that of the order of the look-ups, and no theorem depends on it. -/
def gather (numbers : List Int) : Except Fault ActiveSet :=
  ActiveSet.ofList <$> (SignedIndex.startFirst numbers).mapM A.state

/-- The states reached from `states` by transitions that consume nothing. -/
def close (states : List State) : Except Fault ActiveSet :=
  A.gather (Reach.closure A.edges (states.map State.id)).toList

/-- The states reached from `states` by a transition on `symbol` and then by ones that consume
nothing. -/
def step (states : List State) (symbol : Symbol) : Except Fault ActiveSet := do
  let direct := states.flatMap fun s => (A.outgoing s.id symbol).map (·.target)
  A.close (← direct.mapM A.state)

/-- The states active before any character. -/
def initial : Except Fault ActiveSet :=
  A.close [A.start]

/-- The sets of states after each further character of a text. -/
def walkFrom (active : ActiveSet) : List Char → Except Fault (List ActiveSet)
  | [] => .ok []
  | c :: rest => do
    let next ← A.step active.states (Symbol.ofChar c)
    return next :: (← walkFrom next rest)

/-- The initial set, then the set after each character of a text. -/
def walk (text : List Char) : Except Fault (List ActiveSet) := do
  let first ← A.initial
  return first :: (← A.walkFrom first text)

/-! ## Look-ups -/

theorem outgoing_eq_filter (id : Int) (symbol : Symbol) :
    A.outgoing id symbol = A.transitions.filter fun t => t.source == id && t.symbol == symbol := by
  unfold outgoing
  rw [A.edges_eq, OutEdges.leaving_ofList]

theorem mem_outgoing {id : Int} {symbol : Symbol} {t : Transition} :
    t ∈ A.outgoing id symbol ↔ t ∈ A.transitions ∧ t.source = id ∧ t.symbol = symbol := by
  rw [outgoing_eq_filter, List.mem_filter, Bool.and_eq_true, beq_iff_eq, beq_iff_eq]

/-- A state is found at its place. -/
theorem state_natCast {i : Nat} (h : i < A.states.size) : A.state i = .ok A.states[i] := by
  unfold state stateAt
  rw [SignedIndex.get?_natCast, Array.getElem?_eq_getElem h]

/-- The alphabet ascends strictly. -/
theorem alphabet_ascending : A.alphabet.Pairwise (· < ·) := by
  have h : A.alphabet.Pairwise fun a b => compare a b = .lt := Std.TreeSet.ordered_toList
  exact h.imp fun hab => compareOfLessAndEq_eq_lt.1 hab

theorem mem_alphabet {s : String} : s ∈ A.alphabet ↔ ∃ t ∈ A.transitions, t.symbol = some s := by
  unfold alphabet
  rw [Std.TreeSet.mem_toList, Std.TreeSet.mem_ofList, List.contains_iff_mem, List.mem_filterMap]

end Automaton

end RegexStepper

import RegexStepper.Automaton
import RegexStepper.Token.Printer

/-!
# Drafting an automaton

A `Draft` is an automaton under construction: the accept flags of its states, numbered from 0, its
transitions so far, and a stack of `Fragment`s. A fragment is one expression already built; the
text it matches is spelled from its start to its final state.

Tokens in reverse Polish order are applied one at a time (`apply`): an operand pushes a fragment,
an operator takes its operands from the top and pushes what it makes of them. `assemble` applies a
list and finishes with the one fragment left. `Draft.finish` renumbers: the start state becomes
number 0, and the state that had that number takes the start's.

An action is a `Drafting`: when it fails, what it had changed by then stays changed.
-/

namespace RegexStepper

/-- One expression of a draft, by its first and its last state. -/
structure Fragment where
  start : Nat
  final : Nat
deriving DecidableEq, Repr

/-- An automaton under construction. The top of the stack of fragments comes first. -/
structure Draft where
  accepting : Array Bool
  transitions : Array Transition
  fragments : List Fragment
deriving DecidableEq, Repr

/-- A draft with nothing in it. -/
def Draft.empty : Draft :=
  ⟨#[], #[], []⟩

/-! ## Finishing -/

namespace Draft

/-- Exchanges the numbers `start` and 0. -/
def renumber (start i : Int) : Int :=
  if i = start then 0 else if i = 0 then start else i

/-- The automaton of a draft, its states renumbered so that the start state comes first. Both
numbers are signed positions. -/
def finish (d : Draft) (start final : Int) : Except Fault Automaton := do
  match SignedIndex.offset? d.accepting.size start with
  | none => throw (Fault.ofIndex .noSuchFlag start)
  | some place =>
    let flags := d.accepting.swapIfInBounds 0 place
    let states := flags.mapIdx fun i accepting => ⟨i, accepting⟩
    return {
      start := ← Automaton.stateAt states 0
      final := ← Automaton.stateAt states (renumber start final)
      states
      transitions := d.transitions.toList.map (·.rename (renumber start)) }

theorem renumber_start (start : Int) : renumber start start = 0 := if_pos rfl

theorem renumber_zero (start : Int) : renumber start 0 = start := by
  unfold renumber
  split
  · assumption
  · exact if_pos rfl

/-- A second exchange undoes the first. -/
theorem renumber_renumber (start i : Int) : renumber start (renumber start i) = i := by
  simp only [renumber]
  grind

end Draft

/-! ## Actions -/

/-- An action on a draft. -/
abbrev Drafting := EStateM Fault Draft

namespace Drafting

/-- The result of an action on an empty draft. -/
def result {α : Type} (action : Drafting α) : Except Fault α :=
  match action.run Draft.empty with
  | .ok a _ => .ok a
  | .error e _ => .error e

/-- Adds a state and answers its number. -/
def newState (accepting : Bool) : Drafting Nat :=
  modifyGet fun d => (d.accepting.size, { d with accepting := d.accepting.push accepting })

/-- Adds a transition. -/
def connect (source target : Int) (symbol : Symbol) : Drafting Unit :=
  modify fun d => { d with transitions := d.transitions.push ⟨source, target, symbol⟩ }

/-- Pushes a fragment. -/
def push (f : Fragment) : Drafting Unit :=
  modify fun d => { d with fragments := f :: d.fragments }

/-- Sets the accept flag of a state. -/
def mark (i : Nat) (accepting : Bool) : Drafting Unit := fun d =>
  if h : i < d.accepting.size then
    .ok () { d with accepting := d.accepting.set i accepting }
  else .error (.noSuchFlag i) d

/-- Clears the accept flags of a fragment's two ends. -/
def unmark (f : Fragment) : Drafting Unit := do
  mark f.start false
  mark f.final false

/-- Takes the topmost `count` fragments for `operator`, the lowest first, and clears their accept
flags: only the outermost fragment accepts. A count that is not positive leaves that many of the
lowest fragments instead, so that 0 takes the whole stack. -/
def take (count : Int) (operator : Token) : Drafting (List Fragment) := do
  let fragments := (← get).fragments
  if fragments.length < count then
    let text ← attempt operator.text
    attempt (refuse (.tooFewOperands text count fragments.length) operator.position)
  else
    let taken := if 0 < count then count.toNat else fragments.length - (-count).toNat
    modify fun d => { d with fragments := fragments.drop taken }
    let operands := (fragments.take taken).reverse
    forM operands unmark
    return operands

/-- Pushes the fragment of one symbol. -/
def literal (symbol : Symbol) : Drafting Unit := do
  let start ← newState false
  let final ← newState true
  connect start final symbol
  push ⟨start, final⟩

/-- Pushes the concatenation of the two topmost fragments. -/
def juxtapose (operator : Token) : Drafting Unit := do
  match ← take 2 operator with
  | [f, g] =>
    connect f.final g.start none
    push ⟨f.start, g.final⟩
  | _ => return

/-- Pushes the choice between the two topmost fragments. -/
def alternate (operator : Token) : Drafting Unit := do
  match ← take 2 operator with
  | [f, g] =>
    let start ← newState false
    let final ← newState true
    connect start f.start none
    connect start g.start none
    connect f.final final none
    connect g.final final none
    push ⟨start, final⟩
  | _ => return

/-- Pushes the topmost fragment with an arrow back for more repetitions if `again`, and an arrow
past it for none if `bypass`. -/
def iterate (operator : Token) (again bypass : Bool) : Drafting Unit := do
  match ← take 1 operator with
  | [f] =>
    let start ← newState false
    let final ← newState true
    connect start f.start none
    connect f.final final none
    if again then connect f.final f.start none
    if bypass then connect start final none
    push ⟨start, final⟩
  | _ => return

/-- Applies one token of a list in reverse Polish order. -/
def apply (t : Token) : Drafting Unit :=
  match t.kind with
  | .literal => literal t.value
  | .epsilon => literal none
  | .concat => juxtapose t
  | .union => alternate t
  | .star => iterate t true true
  | .plus => iterate t true false
  | .optional => iterate t false true
  | .opening | .closing | .other _ => do
    let text ← attempt t.text
    attempt (refuse (.unexpectedToken text) t.position)

/-- Applies a list of tokens in reverse Polish order and finishes with the one fragment left. -/
def assemble (tokens : List Token) : Drafting Automaton := do
  forM tokens apply
  match (← get).fragments with
  | [f] =>
    modify fun d => { d with fragments := [] }
    mark f.start false
    mark f.final true
    attempt ((← get).finish f.start f.final)
  | fragments => attempt (refuse (.notOneFragment fragments.length) none)

/-- Adds one accepting state and finishes with it as both start and final state. -/
def assembleEmpty : Drafting Automaton := do
  let only ← newState true
  attempt ((← get).finish only only)

end Drafting

/-! ## What taking fragments does -/

/-- What applying a token can fail with: an error of the pattern at the place of the token, or, as
the error tells the token's text, what printing it fails with. -/
inductive Token.Blamed (t : Token) : Fault → Prop where
  | tooFew {text : String} {required : Int} {available : Nat} : t.text = .ok text →
    available < required → t.Blamed (.pattern ⟨.tooFewOperands text required available, t.position⟩)
  | unexpected {text : String} : t.text = .ok text →
    t.Blamed (.pattern ⟨.unexpectedToken text, t.position⟩)
  | unprintable {fault : Fault} : t.text = .error fault → t.Blamed fault

namespace Draft

/-- The draft with the accept flags of a fragment's two ends cleared. -/
def cleared (d : Draft) (f : Fragment) : Draft :=
  { d with accepting := (d.accepting.setIfInBounds f.start false).setIfInBounds f.final false }

/-- The two ends of a fragment are states of the draft. -/
def Holds (d : Draft) (f : Fragment) : Prop :=
  f.start < d.accepting.size ∧ f.final < d.accepting.size

theorem holds_cleared {d : Draft} {f g : Fragment} : (d.cleared f).Holds g ↔ d.Holds g := by
  simp only [Holds, cleared, Array.size_setIfInBounds]

end Draft

namespace Drafting

variable {d : Draft} {operator : Token} {f : Fragment}

theorem run_mark {i : Nat} {accepting : Bool} (h : i < d.accepting.size) :
    (mark i accepting).run d =
      .ok () { d with accepting := d.accepting.setIfInBounds i accepting } := by
  simp only [mark, EStateM.run, h, dif_pos, Array.setIfInBounds]

theorem run_unmark (h : d.Holds f) : (unmark f).run d = .ok () (d.cleared f) := by
  have hf : f.final < (d.accepting.setIfInBounds f.start false).size := by
    rw [Array.size_setIfInBounds]
    exact h.2
  rw [unmark, EStateM.run_bind, run_mark h.1]
  exact @run_mark { d with accepting := d.accepting.setIfInBounds f.start false } _ _ hf

theorem run_forM_unmark {fs : List Fragment} (h : ∀ f ∈ fs, d.Holds f) :
    (forM fs unmark).run d = .ok () (fs.foldl Draft.cleared d) := by
  induction fs generalizing d with
  | nil => rfl
  | cons f rest ih =>
    rw [List.forM_cons, EStateM.run_bind, run_unmark (h f List.mem_cons_self)]
    exact ih fun g hg => Draft.holds_cleared.2 (h g (List.mem_cons_of_mem f hg))

/-- Where there are enough fragments, the topmost ones are taken and their flags cleared. -/
theorem run_take {count : Nat} (hpos : 0 < count) (hle : count ≤ d.fragments.length)
    (h : ∀ f ∈ d.fragments, d.Holds f) :
    (take count operator).run d = .ok (d.fragments.take count).reverse
      ((d.fragments.take count).reverse.foldl Draft.cleared
        { d with fragments := d.fragments.drop count }) := by
  have hmark := @run_forM_unmark { d with fragments := d.fragments.drop count }
    (d.fragments.take count).reverse fun f hf =>
      h f (List.mem_of_mem_take (List.mem_reverse.1 hf))
  unfold take
  rw [EStateM.run_bind]
  simp only [EStateM.run_get]
  rw [if_neg (by omega), EStateM.run_bind, EStateM.run_modify]
  simp only [Int.natCast_pos.2 hpos, if_true, Int.toNat_natCast]
  rw [EStateM.run_bind, hmark]
  rfl

/-- Where there are too few, nothing changes. -/
theorem run_take_fault {count : Int} (hlt : d.fragments.length < count) :
    ∃ fault, (take count operator).run d = .error fault d ∧ operator.Blamed fault := by
  unfold take
  rw [EStateM.run_bind]
  simp only [EStateM.run_get]
  rw [if_pos hlt, EStateM.run_bind]
  cases htext : operator.text with
  | error fault => exact ⟨fault, rfl, .unprintable htext⟩
  | ok text => exact ⟨_, rfl, .tooFew htext hlt⟩

end Drafting

/-- What can be asked of a draft. -/
inductive Order where
  | apply (t : Token)
  | assemble (tokens : List Token)
  | assembleEmpty
deriving DecidableEq, Repr

/-- Carries out an order. -/
def Order.perform : Order → Drafting Unit
  | apply t => Drafting.apply t
  | assemble tokens => discard (Drafting.assemble tokens)
  | assembleEmpty => discard Drafting.assembleEmpty

/-- The draft after some orders; one that fails leaves what it had done. -/
def Draft.after (d : Draft) (orders : List Order) : Draft :=
  orders.foldl (fun d o => stateAfter o.perform d) d

end RegexStepper

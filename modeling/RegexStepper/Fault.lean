import RegexStepper.SignedIndex
import RegexStepper.Text.Quoted
import RegexStepper.Token

/-!
# What can go wrong

A `PatternError` tells the writer of a pattern what is wrong with it and where. A `Fault` is any
failure: a pattern error, or a request that only hand-made tokens, automata or positions can lead
to. Each has its wording (`PatternError.message`, `Fault.message`).
-/

namespace RegexStepper

/-- Why a pattern or a token list is refused. -/
inductive Cause where
  /-- A backslash is the last character. -/
  | unterminatedEscape
  /-- A group is never closed. -/
  | unmatchedOpening
  /-- A group is closed that was never opened. -/
  | unmatchedClosing
  /-- The expression starts with the operator `text`. -/
  | invalidStart (text : String)
  /-- The expression ends with the operator `text`. -/
  | invalidEnd (text : String)
  /-- The operator `text` found fewer operands than it takes. -/
  | tooFewOperands (text : String) (required : Int) (available : Nat)
  /-- The token `text` has no place in reverse Polish order. -/
  | unexpectedToken (text : String)
  /-- The tokens make `found` expressions and not one. -/
  | notOneFragment (found : Nat)
  /-- The pattern has more than `limit` characters. -/
  | tooLong (length : Nat) (limit : Int)
deriving DecidableEq, Repr

/-- The wording of a cause. -/
def Cause.message : Cause → String
  | unterminatedEscape => "Unterminated escape sequence at end of regex"
  | unmatchedOpening => "Unmatched opening parenthesis"
  | unmatchedClosing => "Unmatched closing parenthesis"
  | invalidStart text => s!"Invalid start of expression: '{text}'"
  | invalidEnd text => s!"Invalid end of expression: '{text}'"
  | tooFewOperands text required available =>
    s!"Not enough operands for '{text}' ({required} required, {available} available)"
  | unexpectedToken text => s!"Unexpected token '{text}' in postfix expression"
  | notOneFragment found =>
    s!"Expected exactly one NFA fragment after construction, found {found}"
  | tooLong length limit => s!"Regex is too long ({length} chars, max {limit})"

/-- A cause, and the position in the pattern where it shows if it has one. -/
structure PatternError where
  cause : Cause
  position : Option Int
deriving DecidableEq, Repr

/-- The wording of an error: that of its cause, then the position. -/
def PatternError.message (e : PatternError) : String :=
  match e.position with
  | none => e.cause.message
  | some n => s!"{e.cause.message} (at position {n})"

/-- Why an operation has no result. -/
inductive Fault where
  /-- The pattern is refused. -/
  | pattern (error : PatternError)
  /-- A token kind that has no precedence or no text was asked for it. -/
  | unknownKind (kind : Kind)
  /-- Of a token list to be printed, the literal at `index` carries no text. -/
  | missingValue (index : Nat)
  /-- No state is stored at `index`. -/
  | noSuchState (index : Int)
  /-- No accept flag is stored at `index`. -/
  | noSuchFlag (index : Int)
  /-- The history has no entry at `index`. -/
  | noSuchEntry (index : Int)
  /-- The text has no character at `index`. -/
  | noSuchCharacter (index : Int)
  /-- The index `index` is too wide to be one of any sequence. -/
  | indexTooWide (index : Int)
  /-- The page does not have a control that an action uses. -/
  | noSuchControl
deriving DecidableEq, Repr

/-- The wording of a fault: that of the pattern error, the quoted name of the kind that is not
known, or what the look-up that failed went through. -/
def Fault.message : Fault → String
  | pattern error => error.message
  | unknownKind kind => Text.quote kind.name
  | missingValue index => s!"sequence item {index}: expected str instance, NoneType found"
  | noSuchState _ => "tuple index out of range"
  | noSuchFlag _ | noSuchEntry _ | noSuchControl => "list index out of range"
  | noSuchCharacter _ => "string index out of range"
  | indexTooWide _ => "cannot fit 'int' into an index-sized integer"

/-- The fault of a look-up that found nothing at `index`: `absent`, if the index fits a word. -/
def Fault.ofIndex (absent : Int → Fault) (index : Int) : Fault :=
  if SignedIndex.fitsWord index then absent index else indexTooWide index

/-- The failure of a pattern for `cause` at `position`. -/
def refuse {α : Type} (cause : Cause) (position : Option Int) : Except Fault α :=
  .error (.pattern ⟨cause, position⟩)

/-- The result or the failure of `x`, as an action that changes nothing. -/
def attempt {σ α : Type} : Except Fault α → EStateM Fault σ α
  | .ok a => pure a
  | .error e => throw e

/-- The state after an action, whether it succeeds or fails. -/
def stateAfter {σ α : Type} (action : EStateM Fault σ α) (s : σ) : σ :=
  match action.run s with
  | .ok _ s => s
  | .error _ s => s

/-! ## The state after an action -/

section

variable {σ α : Type} {action : EStateM Fault σ α} {s t : σ}

theorem stateAfter_of_ok {a : α} (h : action.run s = .ok a t) : stateAfter action s = t := by
  unfold stateAfter
  rw [h]

theorem stateAfter_of_error {fault : Fault} (h : action.run s = .error fault t) :
    stateAfter action s = t := by
  unfold stateAfter
  rw [h]

/-- An action that succeeds does so without its result. -/
theorem run_discard_of_ok {a : α} (h : action.run s = .ok a t) :
    (discard action).run s = .ok () t := by
  show EStateM.map (fun _ => ()) action s = _
  unfold EStateM.map
  rw [show action s = .ok a t from h]

/-- An action that fails does so without its result. -/
theorem run_discard_of_error {fault : Fault} (h : action.run s = .error fault t) :
    (discard action).run s = .error fault t := by
  show EStateM.map (fun _ => ()) action s = _
  unfold EStateM.map
  rw [show action s = .error fault t from h]

/-- Only an action that fails does so without its result. -/
theorem run_of_discard_error {fault : Fault} (h : (discard action).run s = .error fault t) :
    action.run s = .error fault t := by
  cases hrun : action.run s with
  | ok a t' => cases (run_discard_of_ok hrun).symm.trans h
  | error fault' t' =>
    cases (run_discard_of_error hrun).symm.trans h
    rfl

/-- Dropping the result keeps the state. -/
theorem stateAfter_discard : stateAfter (discard action) s = stateAfter action s := by
  show stateAfter (EStateM.map (fun _ => ()) action) s = _
  unfold stateAfter EStateM.run EStateM.map
  cases action s <;> rfl

end

/-! ## Success of a sequence -/

section

variable {ε α β : Type}

theorem exists_eq_ok {x : Except ε α} (h : x.toOption.isSome = true) : ∃ a, x = .ok a := by
  cases x with
  | error e => cases h
  | ok a => exact ⟨a, rfl⟩

theorem eq_ok_of_toOption {x : Except ε α} {a : α} (h : x.toOption = some a) : x = .ok a := by
  cases x with
  | error e => cases h
  | ok b => exact congrArg _ (Option.some.inj h)

theorem bind_eq_ok {x : Except ε α} {f : α → Except ε β} {b : β} :
    x >>= f = .ok b ↔ ∃ a, x = .ok a ∧ f a = .ok b := by
  cases x with
  | error e => simp [bind, Except.bind]
  | ok a => simp [bind, Except.bind]

theorem map_eq_ok {x : Except ε α} {f : α → β} {b : β} :
    f <$> x = .ok b ↔ ∃ a, x = .ok a ∧ f a = b := by
  cases x with
  | error e => simp [Functor.map, Except.map]
  | ok a => simp [Functor.map, Except.map]

/-- A list that is gone through without a failure has its results. -/
theorem exists_mapM_eq_ok {f : α → Except ε β} {xs : List α} (h : ∀ x ∈ xs, ∃ y, f x = .ok y) :
    ∃ ys, xs.mapM f = .ok ys := by
  induction xs with
  | nil => exact ⟨[], rfl⟩
  | cons x xs ih =>
    obtain ⟨y, hy⟩ := h x List.mem_cons_self
    obtain ⟨ys, hys⟩ := ih fun z hz => h z (List.mem_cons_of_mem x hz)
    refine ⟨y :: ys, ?_⟩
    rw [List.mapM_cons, hy, hys]
    rfl

/-- The results stand in the order of the list. -/
theorem getElem?_of_mapM {f : α → Except ε β} {xs : List α} {ys : List β}
    (h : xs.mapM f = .ok ys) :
    ys.length = xs.length ∧
      ∀ (i : Nat) y, ys[i]? = some y → ∃ x, xs[i]? = some x ∧ f x = .ok y := by
  induction xs generalizing ys with
  | nil =>
    cases h
    exact ⟨rfl, fun i y hy => nomatch hy⟩
  | cons x xs ih =>
    rw [List.mapM_cons] at h
    obtain ⟨y, hy, h⟩ := bind_eq_ok.mp h
    obtain ⟨ys', hys, h⟩ := bind_eq_ok.mp h
    cases h
    obtain ⟨hlength, hget⟩ := ih hys
    refine ⟨congrArg (· + 1) hlength, fun i z hz => ?_⟩
    cases i with
    | zero =>
      obtain rfl := Option.some.inj hz
      exact ⟨x, rfl, hy⟩
    | succ i => exact hget i z hz

end

end RegexStepper

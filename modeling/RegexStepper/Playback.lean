import RegexStepper.Automaton

/-!
# Playing a text over an automaton

A `Playback` walks an automaton over a text one character at a time, forward and back. Entry `i` of
its history is the set of states active after `i` characters. An entry is computed when it is first
reached and kept until the text changes or the playback is reset, so walking back and forward again
shows the same sets.

An action is a `Playing`: when it fails, what it had done by then stays done.
-/

namespace RegexStepper

/-- A text, the sets of active states known so far, and how many characters are consumed. -/
structure Playback where
  automaton : Automaton
  text : List Char
  history : Array ActiveSet
  index : Nat

namespace Playback

/-- The playback of a text with nothing consumed. -/
def start (automaton : Automaton) (text : List Char) : Except Fault Playback :=
  return ⟨automaton, text, #[← automaton.initial], 0⟩

variable (p : Playback)

/-- The entry at a signed position of the history. -/
def entry (i : Int) : Except Fault ActiveSet :=
  match SignedIndex.get? p.history i with
  | some active => .ok active
  | none => .error (Fault.ofIndex .noSuchEntry i)

/-- The states active now. -/
def current : Except Fault ActiveSet :=
  p.entry p.index

/-- The whole text is consumed. -/
def atEnd : Bool :=
  p.index == p.text.length

/-- No state is active. -/
def isStuck : Except Fault Bool :=
  ActiveSet.isEmpty <$> p.current

/-- The whole text is consumed and an active state accepts. -/
def isAccepted : Except Fault Bool :=
  if p.atEnd then ActiveSet.hasAccepting <$> p.current else return false

/-- A transition that led from the ids `before` over `c` to the ids `after`: on `c` between them, or
consuming nothing within `after`. -/
def carries (before after : List Int) (c : Char) (t : Transition) : Bool :=
  after.contains t.target &&
    (t.symbol == Symbol.ofChar c && before.contains t.source ||
      t.isEpsilon && after.contains t.source)

/-- The transitions that led to entry `i` from the one before it, in the automaton's order. -/
def firedAt (i : Int) : Except Fault (List Transition) := do
  if i ≤ 0 ∨ p.history.size ≤ i then
    return []
  let before ← p.entry (i - 1)
  let after ← p.entry i
  match p.text[(i - 1).toNat]? with
  | none => throw (.noSuchCharacter (i - 1))
  | some c => return p.automaton.transitions.filter (carries before.ids after.ids c)

/-- The transitions that led to the current entry. -/
def fired : Except Fault (List Transition) :=
  p.firedAt p.index

end Playback

/-! ## Actions -/

/-- An action on a playback. -/
abbrev Playing := EStateM Fault Playback

namespace Playing

/-- Consumes the next character, if there is one. -/
def forward : Playing Bool := do
  let p ← get
  match p.text[p.index]? with
  | none => return false
  | some c =>
    if p.history.size ≤ p.index + 1 then
      let active ← attempt p.current
      let next ← attempt (p.automaton.step active.states (Symbol.ofChar c))
      modify fun p => { p with history := p.history.push next }
    modify fun p => { p with index := p.index + 1 }
    return true

/-- Takes back the last character consumed, if there is one. -/
def back : Playing Bool := do
  if (← get).index = 0 then
    return false
  modify fun p => { p with index := p.index - 1 }
  return true

/-- Forgets all but the first entry and starts again. -/
def reset : Playing Unit :=
  modify fun p => { p with history := p.history.take 1, index := 0 }

/-- Plays another text from its start. -/
def setText (text : List Char) : Playing Unit := do
  modify fun p => { p with text := text }
  reset

/-- Goes forward up to `count` times, while there are characters. -/
def advance : Nat → Playing Unit
  | 0 => return
  | count + 1 => do
    if ← forward then advance count

/-- Consumes all that is left of the text and answers whether it is accepted. -/
def runToEnd : Playing Bool := do
  let p ← get
  advance (p.text.length - p.index)
  attempt (← get).isAccepted

end Playing

/-! ## What going forward and back does -/

namespace Playing

variable {p : Playback} {c : Char}

/-- At the end of the text there is nowhere to go. -/
theorem run_forward_atEnd (h : p.text[p.index]? = none) : forward.run p = .ok false p := by
  rw [forward, EStateM.run_bind]
  simp only [EStateM.run_get, h]
  rfl

/-- An entry that is known already is shown again. -/
theorem run_forward_known (hc : p.text[p.index]? = some c)
    (hknown : p.index + 1 < p.history.size) :
    forward.run p = .ok true { p with index := p.index + 1 } := by
  rw [forward, EStateM.run_bind]
  simp only [EStateM.run_get, hc, Nat.not_le.2 hknown, if_false]
  rfl

/-- An entry that is not known is computed from the current one and added. -/
theorem run_forward_new {active next : ActiveSet} (hc : p.text[p.index]? = some c)
    (hnew : p.history.size ≤ p.index + 1) (hactive : p.current = .ok active)
    (hnext : p.automaton.step active.states (Symbol.ofChar c) = .ok next) :
    forward.run p =
      .ok true { p with history := p.history.push next, index := p.index + 1 } := by
  rw [forward, EStateM.run_bind]
  simp only [EStateM.run_get, hc, hnew, if_true, hactive, attempt, pure_bind, hnext]
  rfl

/-- A step that fails leaves the playback as it was. -/
theorem run_forward_fault {active : ActiveSet} {fault : Fault} (hc : p.text[p.index]? = some c)
    (hnew : p.history.size ≤ p.index + 1) (hactive : p.current = .ok active)
    (hnext : p.automaton.step active.states (Symbol.ofChar c) = .error fault) :
    forward.run p = .error fault p := by
  rw [forward, EStateM.run_bind]
  simp only [EStateM.run_get, hc, hnew, if_true, hactive, attempt, pure_bind, hnext]
  rfl

/-- At the start of the text going back leads nowhere, else to the entry before. -/
theorem run_back : back.run p = .ok (p.index != 0) { p with index := p.index - 1 } := by
  rw [back, EStateM.run_bind]
  simp only [EStateM.run_get]
  by_cases hzero : p.index = 0
  · have hsame : ({ p with index := p.index - 1 } : Playback) = p := by
      rw [hzero, Nat.zero_sub, ← hzero]
    rw [hsame, if_pos hzero, hzero]
    rfl
  · rw [if_neg hzero, bne_iff_ne.mpr hzero]
    rfl

end Playing

/-- What a user can do to a playback. -/
inductive Command where
  | forward
  | back
  | reset
  | setText (text : List Char)
  | runToEnd
deriving DecidableEq, Repr

/-- Carries out a command. -/
def Command.perform : Command → Playing Unit
  | forward => discard Playing.forward
  | back => discard Playing.back
  | reset => Playing.reset
  | setText text => Playing.setText text
  | runToEnd => discard Playing.runToEnd

/-- The playback after some commands; one that fails leaves what it had done. -/
def Playback.after (p : Playback) (commands : List Command) : Playback :=
  commands.foldl (fun p c => stateAfter c.perform p) p

/-- The automaton accepts a text: played to its end, the text is accepted. -/
def Automaton.accepts (A : Automaton) (text : List Char) : Except Fault Bool := do
  match Playing.runToEnd.run (← Playback.start A text) with
  | .ok verdict _ => return verdict
  | .error e _ => throw e

end RegexStepper

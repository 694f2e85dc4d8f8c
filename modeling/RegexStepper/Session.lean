import RegexStepper.Compile
import RegexStepper.Playback
import RegexStepper.ShareLink

/-!
# A session

A `Session` is what one user has before them: a box for the pattern, the last pattern that compiled,
its automaton and its playback, a box for the test text, the last conversion's error, and the
parameter of the link. `Session.start` opens one from a link; `Session.perform` takes it through one
`Action`.

The test box and the playback buttons appear with the first automaton, and an action that uses one
of them before is refused (`offers`). Any other action is one `run`.

In a run, the typed texts reach their boxes first, then a conversion replaces pattern, automaton and
playback or leaves everything but the error as it was, then a changed test text restarts the
playback, then a playback button acts.
-/

namespace RegexStepper

/-- The text to start testing with. -/
def defaultText : String := "abd"

/-- A button of the page. -/
inductive Button where
  | convert
  | reset
  | back
  | forward
  | toEnd
deriving DecidableEq, Repr

/-- What a button asks of the playback. -/
def Button.command? : Button → Option Command
  | convert => none
  | reset => some .reset
  | back => some .back
  | forward => some .forward
  | toEnd => some .runToEnd

/-- What the user does between two pages: type into the boxes, then press a button. -/
structure Action where
  pattern : Option String
  text : Option String
  button : Option Button
deriving DecidableEq, Repr

/-- The playback command that an action ends in, if it ends in one. -/
def Action.command? (a : Action) : Option Command :=
  a.button.bind Button.command?

/-- An action that uses the test box or a playback button. -/
def Action.usesPlayback (a : Action) : Bool :=
  a.text.isSome || a.command?.isSome

/-- The pattern box: what it holds, and the suggestion it was last drawn with. -/
structure PatternBox where
  suggestion : String
  content : String
deriving DecidableEq, Repr

namespace PatternBox

/-- A box that holds its suggestion. -/
def ofSuggestion (suggestion : String) : PatternBox :=
  ⟨suggestion, suggestion⟩

/-- A pattern that the box takes is within the limit. -/
def takes (pattern : String) : Bool :=
  pattern.length ≤ patternLimit

/-- The box after a pattern may have been typed. A new suggestion replaces whatever it holds; a
pattern that is too long leaves it as it is. -/
def refresh (box : PatternBox) (suggestion : String) (typed : Option String) : PatternBox :=
  if box.suggestion = suggestion then
    { box with content := (typed.filter takes).getD box.content }
  else ofSuggestion suggestion

end PatternBox

/-- The state of a session. A conversion fills the slots of the pattern, the automaton and the
playback; the test box appears with the first automaton. -/
structure Session where
  link : Option String
  error : Option PatternError
  pattern : Option String
  automaton : Option Automaton
  playback : Option Playback
  patternBox : PatternBox
  testBox : Option String

namespace Session

variable (s : Session)

/-- What the pattern box suggests: the last pattern that compiled. -/
def suggestion : String :=
  s.pattern.getD defaultPattern

/-- The text to be tested. -/
def testText : String :=
  s.testBox.getD defaultText

/-- The parameter of the link, unless it is empty. -/
def parameter : Option String :=
  s.link.filter (· ≠ "")

/-- The playback to be shown. Without one there is not even a first entry to look at. -/
def played : Except Fault Playback :=
  match s.playback with
  | some p => .ok p
  | none => .error (.noSuchEntry 0)

/-- Converts a pattern: on success its playback starts on the test text and the link holds it; if
the pattern is refused, only the error changes. -/
def convert (pattern : String) : Except Fault Session :=
  match compile pattern patternLimit with
  | .error (.pattern e) => .ok { s with error := some e }
  | .error fault => .error fault
  | .ok automaton => do
    let playback ← Playback.start automaton s.testText.toList
    return { s with
      link := some (ShareLink.encode pattern)
      error := none
      pattern := some pattern
      automaton := some automaton
      playback := some playback }

/-- Carries out commands on a playback. -/
def play (p : Playback) : List Command → Except Fault Playback
  | [] => .ok p
  | c :: rest =>
    match c.perform.run p with
    | .ok _ q => play q rest
    | .error fault _ => .error fault

/-- Where there is an automaton, brings the playback up to date with the test box, then carries out
a command on it. -/
def settle (command : Option Command) : Except Fault Session :=
  match s.automaton with
  | none => .ok s
  | some _ => do
    let p ← s.played
    let text := s.testText
    let change := if text.toList = p.text then [] else [.setText text.toList]
    let playback ← play p (change ++ command.toList)
    return { s with playback := some playback, testBox := some text }

/-- A session of a link before anything is converted. -/
def blank (link : Option String) : Session where
  link := link
  error := none
  pattern := none
  automaton := none
  playback := none
  patternBox := .ofSuggestion defaultPattern
  testBox := none

/-- The pattern that a session of a link converts first. -/
def firstAttempt : Option String → String
  | none => defaultPattern
  | some parameter => ShareLink.decode parameter defaultPattern

/-- The session of a link, converted once. -/
def start (link : Option String) : Except Fault Session := do
  let s ← (blank link).convert (firstAttempt link)
  { s with patternBox := .ofSuggestion s.suggestion }.settle none

/-- The session with the texts of an action in its boxes. -/
def type (a : Action) : Session :=
  { s with
    patternBox := s.patternBox.refresh s.suggestion a.pattern
    testBox := s.testBox.map a.text.getD }

/-- One run. -/
def run (a : Action) : Except Fault Session := do
  let s := s.type a
  let s ← if a.button = some .convert then s.convert s.patternBox.content else .ok s
  s.settle a.command?

/-- The page has every control that an action uses. -/
def offers (a : Action) : Bool :=
  s.automaton.isSome || !a.usesPlayback

/-- Carries out an action, if the page has the controls for it. -/
def perform (a : Action) : Except Fault Session :=
  if s.offers a then s.run a else .error .noSuchControl

/-- The session of a link after some actions. -/
def after (link : Option String) (actions : List Action) : Except Fault Session := do
  actions.foldlM perform (← start link)

/-! ## What is there -/

variable {s} {a : Action} {p : Playback}

theorem played_of_some (h : s.playback = some p) : s.played = .ok p := by
  unfold played
  rw [h]

theorem played_of_none (h : s.playback = none) : s.played = .error (.noSuchEntry 0) := by
  unfold played
  rw [h]

theorem perform_of_offers (h : s.offers a = true) : s.perform a = s.run a :=
  if_pos h

theorem perform_eq_noSuchControl (h : s.offers a = false) :
    s.perform a = .error .noSuchControl :=
  if_neg (ne_true_of_eq_false h)

end Session

end RegexStepper

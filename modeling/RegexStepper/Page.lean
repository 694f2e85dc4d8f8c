import RegexStepper.Drawing
import RegexStepper.Session
import RegexStepper.Table

/-!
# The page of a session

A `Page` is what a session shows: the last conversion's error and, once there is an automaton, a
`Board` with the facts about it, the progress of the test, the verdict, the drawing and the tables.
-/

namespace RegexStepper

/-- What can be said of the test so far. -/
inductive Verdict where
  /-- The whole text is consumed and accepted. -/
  | accepted
  /-- The whole text is consumed and not accepted. -/
  | rejected
  /-- No continuation can be accepted. -/
  | stuck
  /-- It depends on the rest. -/
  | undecided
deriving DecidableEq, Repr

namespace Verdict

/-- The good news, if any. -/
def success? : Verdict → Option String
  | accepted => some "✅ Accepted"
  | rejected | stuck | undecided => none

/-- The bad news, if any. -/
def failure? : Verdict → Option String
  | rejected => some "❌ Rejected"
  | stuck => some "❌ Rejected (no active states left)"
  | accepted | undecided => none

/-- The verdict on a playback. -/
def ofPlayback (p : Playback) : Except Fault Verdict := do
  if p.atEnd then return if ← p.isAccepted then accepted else rejected
  return if ← p.isStuck then stuck else undecided

end Verdict

/-- What is shown of an automaton and a playback. -/
structure Board where
  caption : String
  progress : String
  verdict : Verdict
  drawing : String
  history : Table
  transitions : Table
deriving DecidableEq, Repr

namespace Board

/-- The size and the alphabet of an automaton. -/
def captionOf (A : Automaton) : String :=
  s!"{A.stateCount} states · {A.transitionCount} transitions · alphabet " ++
    "\x7b" ++ ", ".intercalate A.alphabet ++ "\x7d"

/-- A blank within a line. -/
def isBlank (c : Char) : Bool :=
  c == ' ' || c == '\t'

/-- The text with every line of blanks alone made empty. -/
def withoutBlankLines (text : String) : String :=
  "\n".intercalate ((text.splitOn "\n").map fun line =>
    if line.toList.all isBlank then "" else line)

/-- A part of the text, marked as code. -/
def excerpt (cs : List Char) : String :=
  "`" ++ (if cs.isEmpty then epsilonSign else String.ofList cs) ++ "`"

/-- How far a playback is. The page shows no blanks on a line without anything else. -/
def progressOf (p : Playback) : String :=
  withoutBlankLines
    (s!"Step **{p.index}/{p.text.length}**" ++
      " · consumed " ++ excerpt (p.text.take p.index) ++
      " · remaining " ++ excerpt (p.text.drop p.index))

/-- The board of an automaton and the playback beside it. -/
def ofPlayback (A : Automaton) (p : Playback) : Except Fault Board :=
  return {
    caption := captionOf A
    progress := progressOf p
    verdict := ← Verdict.ofPlayback p
    drawing := Drawing.source A (← p.highlight)
    history := ← Table.ofHistory p
    transitions := Table.ofTransitions A }

end Board

/-- What is shown of a session. -/
structure Page where
  error : Option String
  board : Option Board
deriving DecidableEq, Repr

namespace Page

/-- The page of a session. -/
def ofSession (s : Session) : Except Fault Page := do
  let error := s.error.map fun e => "Error: " ++ e.message
  match s.automaton with
  | none => return ⟨error, none⟩
  | some A => return ⟨error, some (← Board.ofPlayback A (← s.played))⟩

/-- The messages of success, in the order of the page. -/
def successes (page : Page) : List String :=
  (page.board.bind fun b => b.verdict.success?).toList

/-- The messages of failure, in the order of the page. -/
def failures (page : Page) : List String :=
  page.error.toList ++ (page.board.bind fun b => b.verdict.failure?).toList

end Page

end RegexStepper

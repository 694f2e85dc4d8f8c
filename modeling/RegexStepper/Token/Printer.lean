import RegexStepper.Fault
import RegexStepper.Symbol

/-!
# Printing tokens

`Token.textOf` writes a token list on one line. A literal is written as its text, behind a
backslash if that text alone would be read as something else; an operator is written from its kind,
whatever text it carries.

A token of unknown kind anywhere in the list is reported before a literal without text.
-/

namespace RegexStepper

/-- The sign of an explicit concatenation. -/
def concatSign : String := "·"

/-- The texts that a literal shares with an operator, the backslash or the empty string. -/
def escapedTexts : List String := ["|", "*", "+", "?", "(", ")", "\\", epsilonSign]

/-- The text of a literal. -/
def literalText (value : String) : String :=
  if value ∈ escapedTexts then "\\" ++ value else value

namespace Token

/-- The text of one token; a literal that carries none has none. -/
def piece (t : Token) : Except Fault (Option String) :=
  match t.kind with
  | .literal => .ok (t.value.map literalText)
  | .epsilon => .ok (some epsilonSign)
  | .concat => .ok (some concatSign)
  | .union => .ok (some "|")
  | .star => .ok (some "*")
  | .plus => .ok (some "+")
  | .optional => .ok (some "?")
  | .opening => .ok (some "(")
  | .closing => .ok (some ")")
  | .other name => .error (.unknownKind (.other name))

/-- The text of a token list. -/
def textOf (tokens : List Token) : Except Fault String := do
  let pieces ← tokens.mapM piece
  match pieces.findIdx? (·.isNone) with
  | some index => throw (.missingValue index)
  | none => return String.join pieces.reduceOption

/-- The text of a single token. -/
def text (t : Token) : Except Fault String :=
  textOf [t]

/-- Tokens that all have a text are printed one behind the other. -/
theorem textOf_of_pieces {ts : List Token} {texts : List String}
    (h : ts.mapM piece = .ok (texts.map some)) : textOf ts = .ok (String.join texts) := by
  have hnone : (texts.map some).findIdx? Option.isNone = none := by
    rw [List.findIdx?_eq_none_iff]
    intro piece hpiece
    obtain ⟨text, _, rfl⟩ := List.mem_map.mp hpiece
    rfl
  have hreduce : (texts.map some).reduceOption = texts := by
    show (texts.map some).filterMap id = texts
    simp [List.filterMap_map]
  unfold textOf
  simp only [h, bind, Except.bind, hnone, hreduce]
  rfl

end Token

end RegexStepper

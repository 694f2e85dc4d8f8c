/-!
# Symbols

The label of a transition is a symbol: a text, or nothing for a transition that consumes nothing.
The text `ε` and the empty text are ordinary symbols, different from the absent one.
-/

namespace RegexStepper

/-- The sign of the empty string. -/
def epsilonSign : String := "ε"

/-- The label of a transition; `none` consumes nothing. -/
abbrev Symbol := Option String

namespace Symbol

/-- The symbol of a character of the text. -/
def ofChar (c : Char) : Symbol :=
  some c.toString

/-- How a symbol is shown. -/
def label (s : Symbol) : String :=
  s.getD epsilonSign

end Symbol

end RegexStepper

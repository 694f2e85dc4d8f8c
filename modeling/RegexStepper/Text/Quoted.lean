import RegexStepper.Text.Printable

/-!
# Quoted texts

A quoted text can be read on one line whatever characters it has. It stands between single quotes,
or between double quotes if it has a single quote and no double one. Within them

* the quote and the backslash stand behind a backslash;
* a line feed, a carriage return and a tab are written as a backslash and a letter;
* any other character that is not printable is written by its code point, in hexadecimal digits of
  a fixed width: two behind an x, four behind a u or eight behind a U, whichever is the first to
  hold it;
* every other character stands for itself.
-/

namespace RegexStepper

namespace Text

/-- A single quote. -/
def singleQuote : Char := '\x27'

/-- A double quote. -/
def doubleQuote : Char := '\x22'

/-- The quote for a text. -/
def quoteFor (cs : List Char) : Char :=
  if singleQuote ∈ cs ∧ doubleQuote ∉ cs then doubleQuote else singleQuote

/-- The last `width` hexadecimal digits of a number. -/
def hexDigits : Nat → Nat → List Char
  | 0, _ => []
  | width + 1, n => hexDigits width (n / 16) ++ [Nat.digitChar (n % 16)]

/-- The letter that announces a code point, and the number of digits it takes. -/
def codeForm (n : Nat) : Char × Nat :=
  if n < 0x100 then ('x', 2) else if n < 0x10000 then ('u', 4) else ('U', 8)

/-- A character by its code point. -/
def byCode (c : Char) : List Char :=
  let form := codeForm c.toNat
  '\\' :: form.1 :: hexDigits form.2 c.toNat

/-- A character as it stands within quotes. -/
def escape (quote c : Char) : List Char :=
  if c = quote ∨ c = '\\' then ['\\', c]
  else if c = '\n' then ['\\', 'n']
  else if c = '\r' then ['\\', 'r']
  else if c = '\t' then ['\\', 't']
  else if isPrintable c then [c]
  else byCode c

/-- The characters of a text in quotes. -/
def quoted (cs : List Char) : List Char :=
  let quote := quoteFor cs
  quote :: cs.flatMap (escape quote) ++ [quote]

/-- A text in quotes. -/
def quote (text : String) : String :=
  String.ofList (quoted text.toList)

end Text

end RegexStepper

import RegexStepper.Draft
import RegexStepper.ReversePolish

/-!
# Compiling a pattern

`compile` turns a pattern into an automaton or says what is wrong with the pattern. The length is
looked at before anything else, and the empty pattern matches the empty text alone.
-/

namespace RegexStepper

/-- The most characters a pattern may have where no other limit is set. -/
def patternLimit : Int := 100

/-- The automaton of a pattern of at most `limit` characters. -/
def compile (pattern : String) (limit : Int) : Except Fault Automaton :=
  if limit < pattern.length then refuse (.tooLong pattern.length limit) none
  else if pattern.isEmpty then Drafting.assembleEmpty.result
  else do (Drafting.assemble (← ReversePolish.ofPattern pattern)).result

end RegexStepper

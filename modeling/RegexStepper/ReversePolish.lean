import RegexStepper.Token.Junction
import RegexStepper.Token.Printer

/-!
# Reverse Polish order

`ReversePolish.ofTokens` reorders a token list with explicit concatenations so that every operator
follows its operands. Operators wait on a stack, top first, until an operator that binds less
tightly, the end of their group or the end of the list releases them. All operators associate to
the left, so an equally tight one releases them too. Parentheses are never written.

The list must not start with an operator nor end with one that joins two operands; the end is
looked at last.
-/

namespace RegexStepper

namespace ReversePolish

/-- The precedence of a kind, which the comparison of two operators needs. -/
def precedence (k : Kind) : Except Fault Nat :=
  match k.precedence? with
  | some p => .ok p
  | none => .error (.unknownKind k)

/-- The waiting operators that an incoming operator releases, and those that go on waiting: the
topmost ones that bind at least as tightly, down to the group that is open. -/
def release (incoming : Kind) : List Token → Except Fault (List Token × List Token)
  | [] => .ok ([], [])
  | top :: waiting =>
    if top.kind = .opening then .ok ([], top :: waiting)
    else do
      let held ← precedence top.kind
      let asked ← precedence incoming
      if asked ≤ held then
        let (released, left) ← release incoming waiting
        return (top :: released, left)
      else
        return ([], top :: waiting)

/-- The operators that the end of a group releases, and those waiting outside it. -/
def closeGroup (position : Option Int) : List Token → Except Fault (List Token × List Token)
  | [] => refuse .unmatchedClosing position
  | top :: waiting =>
    if top.kind = .opening then .ok ([], waiting)
    else do
      let (released, left) ← closeGroup position waiting
      return (top :: released, left)

/-- The operators that the end of the list releases: all of them, if no group is open. -/
def drain : List Token → Except Fault (List Token)
  | [] => .ok []
  | top :: waiting =>
    if top.kind = .opening then refuse .unmatchedOpening top.position
    else (top :: ·) <$> drain waiting

/-- The reordered rest of a token list, with the operators that wait. -/
def arrange (waiting : List Token) : List Token → Except Fault (List Token)
  | [] => drain waiting
  | t :: rest =>
    match t.kind with
    | .literal | .epsilon => (t :: ·) <$> arrange waiting rest
    | .opening => arrange (t :: waiting) rest
    | .closing => do
      let (released, left) ← closeGroup t.position waiting
      (released ++ ·) <$> arrange left rest
    | operator => do
      let (released, left) ← release operator waiting
      (released ++ ·) <$> arrange (t :: left) rest

/-- A list must not start with an operator. -/
def checkStart (first : Token) : Except Fault Unit := do
  if first.kind.isJoiner || first.kind.isQuantifier then
    refuse (.invalidStart (← first.text)) first.position

/-- A list must not end with an operator that joins two operands. -/
def checkEnd (last : Token) : Except Fault Unit := do
  if last.kind.isJoiner then
    refuse (.invalidEnd (← last.text)) last.position

/-- The tokens in reverse Polish order. -/
def ofTokens : List Token → Except Fault (List Token)
  | [] => .ok []
  | first :: rest => do
    checkStart first
    let output ← arrange [] (first :: rest)
    checkEnd ((first :: rest).getLast (List.cons_ne_nil first rest))
    return output

/-- The tokens of a pattern in reverse Polish order. -/
def ofPattern (pattern : String) : Except Fault (List Token) := do
  ofTokens (← Token.joinedOfPattern pattern)

end ReversePolish

end RegexStepper

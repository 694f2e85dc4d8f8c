/-!
# Tokens

A pattern is read into tokens, and every later stage works on token lists. A token has a kind, the
text it was read from, and the position of that text in the pattern.

The kinds fall into classes that decide where a concatenation is implied (`endsExpression`,
`beginsExpression`) and how tightly an operator binds (`precedence?`).
-/

namespace RegexStepper

/-- What a token stands for. -/
inductive Kind where
  /-- A symbol that stands for itself. -/
  | literal
  /-- The empty string. -/
  | epsilon
  /-- Concatenation of the two expressions beside it. -/
  | concat
  /-- Choice between the two expressions beside it. -/
  | union
  /-- Zero or more repetitions. -/
  | star
  /-- One or more repetitions. -/
  | plus
  /-- Zero or one repetition. -/
  | optional
  /-- The start of a group. -/
  | opening
  /-- The end of a group. -/
  | closing
  /-- A kind without a meaning: no pattern yields one, but a token list made by hand can. -/
  | other (name : String)
deriving DecidableEq, Repr

namespace Kind

/-- The name of a kind. -/
def name : Kind → String
  | literal => "literal"
  | epsilon => "epsilon"
  | concat => "concat"
  | union => "union"
  | star => "star"
  | plus => "plus"
  | optional => "optional"
  | opening => "lparen"
  | closing => "rparen"
  | other name => name

/-- The kinds that stand for an expression on their own. -/
def isOperand : Kind → Bool
  | literal | epsilon => true
  | _ => false

/-- The operators written after their one operand. -/
def isQuantifier : Kind → Bool
  | star | plus | optional => true
  | _ => false

/-- The operators written between their two operands. -/
def isJoiner : Kind → Bool
  | union | concat => true
  | _ => false

/-- The kinds that can close a subexpression. -/
def endsExpression (k : Kind) : Bool :=
  k.isOperand || k.isQuantifier || k == closing

/-- The kinds that can open a subexpression. -/
def beginsExpression (k : Kind) : Bool :=
  k.isOperand || k == opening

/-- How tightly an operator binds; the other kinds have no precedence. -/
def precedence? : Kind → Option Nat
  | union => some 1
  | concat => some 2
  | star | plus | optional => some 3
  | _ => none

/-- The kind of a character that is an operator when it is not escaped. -/
def ofOperator? : Char → Option Kind
  | '|' => some union
  | '*' => some star
  | '+' => some plus
  | '?' => some optional
  | '(' => some opening
  | ')' => some closing
  | _ => none

end Kind

/-- A token: its kind, the text it carries and where that text stands in the pattern. A token made
by hand may lack the text or the position. -/
structure Token where
  kind : Kind
  value : Option String
  position : Option Int
deriving DecidableEq, Repr

/-! ## The classes of kinds -/

namespace Kind

theorem isOperand_iff {k : Kind} : k.isOperand = true ↔ k = literal ∨ k = epsilon := by
  cases k <;> simp [isOperand]

theorem isQuantifier_iff {k : Kind} :
    k.isQuantifier = true ↔ k = star ∨ k = plus ∨ k = optional := by
  cases k <;> simp [isQuantifier]

theorem isJoiner_iff {k : Kind} : k.isJoiner = true ↔ k = union ∨ k = concat := by
  cases k <;> simp [isJoiner]

theorem isOperand_eq_false {k : Kind} (hliteral : k ≠ literal) (hepsilon : k ≠ epsilon) :
    k.isOperand = false :=
  Bool.eq_false_iff.mpr fun h => (isOperand_iff.mp h).elim hliteral hepsilon

theorem isQuantifier_of_isOperand {k : Kind} (h : k.isOperand = true) : k.isQuantifier = false := by
  rcases isOperand_iff.mp h with rfl | rfl <;> rfl

theorem isJoiner_of_isOperand {k : Kind} (h : k.isOperand = true) : k.isJoiner = false := by
  rcases isOperand_iff.mp h with rfl | rfl <;> rfl

/-- The operators with a precedence are the quantifiers and the joiners. -/
theorem precedence?_isSome {k : Kind} :
    k.precedence?.isSome = (k.isQuantifier || k.isJoiner) := by
  cases k <;> rfl

/-- A parenthesis has no precedence. -/
theorem ne_opening_of_precedence? {k : Kind} (h : k.precedence?.isSome = true) : k ≠ opening := by
  rintro rfl
  cases h

/-- The characters that are operators, each with its kind. -/
theorem ofOperator?_eq_some_iff {c : Char} {k : Kind} : ofOperator? c = some k ↔
    (c, k) ∈ [('|', union), ('*', star), ('+', plus), ('?', optional), ('(', opening),
      (')', closing)] := by
  unfold ofOperator?
  split <;> simp_all [eq_comm]

/-- What holds of each operator and its kind holds of a character that is one. -/
@[elab_as_elim]
theorem operator_cases {motive : Char → Kind → Prop} (bar : motive '|' union)
    (asterisk : motive '*' star) (cross : motive '+' plus) (question : motive '?' optional)
    (left : motive '(' opening) (right : motive ')' closing) {c : Char} {k : Kind}
    (h : ofOperator? c = some k) : motive c k := by
  unfold ofOperator? at h
  split at h
  case h_7 => cases h
  all_goals
    obtain rfl := Option.some.inj h
    assumption

/-- No character is the operator of a concatenation or of an unknown kind. -/
theorem ofOperator?_eq_some {c : Char} {k : Kind} (h : ofOperator? c = some k) :
    k ≠ concat ∧ ∀ name, k ≠ other name := by
  refine operator_cases ?_ ?_ ?_ ?_ ?_ ?_ h <;> simp

end Kind

end RegexStepper

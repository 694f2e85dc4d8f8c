import RegexStepper.Regex

/-!
# The grammar of patterns

A `Tree` is an expression as it is written, groups included. A valid tree obeys the grammar

* an expression is one or more terms with a union between each two,
* a term is one or more factors side by side,
* a factor is an atom and then any number of quantifiers,
* an atom is an operand or a group around an expression,

in which unions and concatenations associate to the left. The same tree is read in three ways: as a
pattern spells it (`spelling`, concatenation implied), with its concatenations written out
(`tokens`), and in reverse Polish order (`postorder`, no parentheses). Headline:
`evaluate?_postorder`, the last one evaluates to the meaning of the tree.
-/

namespace RegexStepper

/-- An expression as it is written. -/
inductive Tree where
  | operand (t : Token)
  | group (opening : Token) (body : Tree) (closing : Token)
  | quantified (body : Tree) (operator : Token)
  | concat (left : Tree) (operator : Token) (right : Tree)
  | union (left : Tree) (operator : Token) (right : Tree)
deriving DecidableEq, Repr

namespace Tree

/-- How loosely a tree is bound: an expression, a term, a factor. An atom counts as a factor. -/
inductive Level where
  | expression
  | term
  | factor
deriving DecidableEq, Repr

/-- The tightest level that a tree belongs to. -/
def level : Tree → Level
  | operand _ | group _ _ _ | quantified _ _ => .factor
  | concat _ _ _ => .term
  | union _ _ _ => .expression

/-- The tree obeys the grammar. -/
def Valid : Tree → Prop
  | operand t => t.kind.isOperand = true
  | group opening body closing => opening.kind = .opening ∧ closing.kind = .closing ∧ body.Valid
  | quantified body operator =>
    operator.kind.isQuantifier = true ∧ body.level = .factor ∧ body.Valid
  | concat left operator right =>
    operator.kind = .concat ∧ left.level ≠ .expression ∧ right.level = .factor ∧
      left.Valid ∧ right.Valid
  | union left operator right =>
    operator.kind = .union ∧ right.level ≠ .expression ∧ left.Valid ∧ right.Valid

/-- The tokens of a tree, concatenations written out. -/
def tokens : Tree → List Token
  | operand t => [t]
  | group opening body closing => opening :: body.tokens ++ [closing]
  | quantified body operator => body.tokens ++ [operator]
  | concat left operator right => left.tokens ++ operator :: right.tokens
  | union left operator right => left.tokens ++ operator :: right.tokens

/-- The tokens of a tree, concatenations implied. -/
def spelling : Tree → List Token
  | operand t => [t]
  | group opening body closing => opening :: body.spelling ++ [closing]
  | quantified body operator => body.spelling ++ [operator]
  | concat left _ right => left.spelling ++ right.spelling
  | union left operator right => left.spelling ++ operator :: right.spelling

/-- The tokens of a tree, every operator after its operands and no parentheses. -/
def postorder : Tree → List Token
  | operand t => [t]
  | group _ body _ => body.postorder
  | quantified body operator => body.postorder ++ [operator]
  | concat left operator right => left.postorder ++ right.postorder ++ [operator]
  | union left operator right => left.postorder ++ right.postorder ++ [operator]

/-- The meaning of a quantifier. -/
def quantify (r : Regex) : Kind → Regex
  | .star => .star r
  | .plus => .plus r
  | _ => .optional r

/-- The meaning of a tree. -/
def regex : Tree → Regex
  | operand t => if t.kind = .literal then Regex.ofSymbol? t.value else .epsilon
  | group _ body _ => body.regex
  | quantified body operator => quantify body.regex operator.kind
  | concat left _ right => .concat left.regex right.regex
  | union left _ right => .union left.regex right.regex

/-- A token list spells an expression with the meaning `r`. -/
def Spells (ts : List Token) (r : Regex) : Prop :=
  ∃ tree : Tree, tree.Valid ∧ tree.spelling = ts ∧ tree.regex = r

/-! ## The three readings -/

/-- A tree writes at least one token. -/
theorem spelling_ne_nil (tree : Tree) : tree.spelling ≠ [] := by
  induction tree with
  | operand => simp [spelling]
  | group => simp [spelling]
  | quantified => simp [spelling]
  | concat left _ _ ih _ => simp [spelling, ih]
  | union => simp [spelling]

/-- **Reverse Polish order keeps the meaning**: it pushes the tree's expression. -/
theorem evaluate?_postorder {tree : Tree} (h : tree.Valid) (stack : List Regex) :
    ReversePolish.evaluate? stack tree.postorder = some (tree.regex :: stack) := by
  induction tree generalizing stack with
  | operand t =>
    rcases Kind.isOperand_iff.1 h with hk | hk <;>
      simp [postorder, regex, ReversePolish.evaluate?, ReversePolish.push?, hk]
  | group _ body _ ih => exact ih h.2.2 stack
  | quantified body operator ih =>
    rw [postorder, ReversePolish.evaluate?_append, ih h.2.2]
    rcases Kind.isQuantifier_iff.1 h.1 with hk | hk | hk <;>
      simp [regex, quantify, ReversePolish.evaluate?, ReversePolish.push?, hk]
  | concat left operator right ihl ihr =>
    obtain ⟨hk, _, _, hl, hr⟩ := h
    rw [postorder, ReversePolish.evaluate?_append, ReversePolish.evaluate?_append, ihl hl,
      Option.bind_some, ihr hr]
    simp [regex, ReversePolish.evaluate?, ReversePolish.push?, hk]
  | union left operator right ihl ihr =>
    obtain ⟨hk, _, hl, hr⟩ := h
    rw [postorder, ReversePolish.evaluate?_append, ReversePolish.evaluate?_append, ihl hl,
      Option.bind_some, ihr hr]
    simp [regex, ReversePolish.evaluate?, ReversePolish.push?, hk]

/-! ## The ends of a tree -/

/-- The first token of a tree. -/
def first : Tree → Token
  | operand t => t
  | group opening _ _ => opening
  | quantified body _ => body.first
  | concat left _ _ | union left _ _ => left.first

/-- The last token of a tree. -/
def last : Tree → Token
  | operand t => t
  | group _ _ closing => closing
  | quantified _ operator => operator
  | concat _ _ right | union _ _ right => right.last

theorem tokens_eq_cons (tree : Tree) : ∃ rest, tree.tokens = tree.first :: rest := by
  induction tree with
  | operand t => exact ⟨[], rfl⟩
  | group opening body closing => exact ⟨_, rfl⟩
  | quantified body operator ih | concat body operator _ ih | union body operator _ ih =>
    obtain ⟨rest, hrest⟩ := ih
    exact ⟨_, by rw [tokens, hrest]; rfl⟩

theorem tokens_eq_snoc (tree : Tree) : ∃ before, tree.tokens = before ++ [tree.last] := by
  induction tree with
  | operand t => exact ⟨[], rfl⟩
  | group opening body closing => exact ⟨opening :: body.tokens, rfl⟩
  | quantified body operator => exact ⟨body.tokens, rfl⟩
  | concat left operator right _ ih | union left operator right _ ih =>
    obtain ⟨before, hbefore⟩ := ih
    exact ⟨left.tokens ++ operator :: before, by rw [tokens, hbefore, List.append_assoc]; rfl⟩

/-- A valid tree begins as an expression does. -/
theorem beginsExpression_first {tree : Tree} (h : tree.Valid) :
    tree.first.kind.beginsExpression = true := by
  induction tree with
  | operand t => exact Bool.or_eq_true_iff.mpr (Or.inl h)
  | group opening body closing => exact Bool.or_eq_true_iff.mpr (Or.inr (beq_iff_eq.mpr h.1))
  | quantified body operator ih => exact ih h.2.2
  | concat left operator right ih => exact ih h.2.2.2.1
  | union left operator right ih => exact ih h.2.2.1

/-- A valid tree ends as an expression does. -/
theorem endsExpression_last {tree : Tree} (h : tree.Valid) :
    tree.last.kind.endsExpression = true := by
  induction tree with
  | operand t =>
    rcases Kind.isOperand_iff.mp h with hkind | hkind <;> rw [last, hkind] <;> rfl
  | group opening body closing => rw [last, h.2.1]; rfl
  | quantified body operator =>
    rcases Kind.isQuantifier_iff.mp h.1 with hkind | hkind | hkind <;> rw [last, hkind] <;> rfl
  | concat left operator right _ ih => exact ih h.2.2.2.2
  | union left operator right _ ih => exact ih h.2.2.2

end Tree

end RegexStepper

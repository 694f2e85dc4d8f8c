import RegexStepper.Token.Lexer

/-!
# Making concatenation explicit

In a pattern, two expressions side by side are concatenated. `Token.join` writes a concatenation
token between every token that can close an expression and a following one that can open one, at
the position of the latter.
-/

namespace RegexStepper

namespace Token

/-- A concatenation is implied between `left` and `right`. -/
def junction (left right : Token) : Bool :=
  left.kind.endsExpression && right.kind.beginsExpression

/-- The concatenation implied before `right`. -/
def concatBefore (right : Token) : Token :=
  ⟨.concat, none, right.position⟩

/-- The tokens after `left`, with the implied concatenations written out. -/
def joinAfter (left : Token) : List Token → List Token
  | [] => []
  | right :: rest =>
    if junction left right then concatBefore right :: right :: joinAfter right rest
    else right :: joinAfter right rest

/-- The tokens with the implied concatenations written out. -/
def join : List Token → List Token
  | [] => []
  | first :: rest => first :: joinAfter first rest

/-- The tokens of a pattern with the implied concatenations written out. -/
def joinedOfPattern (pattern : String) : Except Fault (List Token) :=
  join <$> ofPattern pattern

/-! ## What is added -/

theorem join_cons (first : Token) (rest : List Token) :
    join (first :: rest) = first :: joinAfter first rest := rfl

/-- Without its concatenations the result is the input without its own. -/
theorem filter_joinAfter (left : Token) (ts : List Token) :
    (joinAfter left ts).filter (·.kind != .concat) = ts.filter (·.kind != .concat) := by
  induction ts generalizing left with
  | nil => rfl
  | cons right rest ih =>
    by_cases h : junction left right = true <;>
      by_cases hr : right.kind = .concat <;>
        simp [joinAfter, h, hr, ih, concatBefore]

theorem filter_join (ts : List Token) :
    (join ts).filter (·.kind != .concat) = ts.filter (·.kind != .concat) := by
  cases ts with
  | nil => rfl
  | cons first rest =>
    by_cases hf : first.kind = .concat <;> simp [join, hf, filter_joinAfter]

end Token

end RegexStepper

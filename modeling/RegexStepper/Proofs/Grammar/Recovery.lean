import RegexStepper.Proofs.Grammar.Joined
import RegexStepper.Proofs.ReversePolish.Balance

/-!
# Recovering a derivation

Nothing checks a token list against the grammar: what is refused is a list whose parentheses do not
match, or one that leaves too few or too many expressions on the stack. This is enough. Wherever an
expression is missing, in an empty group, in an empty alternative or before a quantifier, two
tokens meet of which the first ends nothing and the second begins nothing. Each such place, a
`defect`, lowers the balance by one, and nothing raises it again (`balance_join`).

A list without defects whose parentheses match is read from left to right: `Reads depth expecting
ts` says that `ts` begins some expression, with `depth` groups open, and whether the next token has
to begin an expression. Each token keeps that (`Reads.step`), and at the end a tree is there
(`Reads.append`).

Headline: **`spells_of_ofTokens`**, only what the grammar derives is compiled.
-/

namespace RegexStepper

namespace Tree

variable {ts us : List Token} {t opening closing operator : Token} {l l' : Level}

/-! ## The productions -/

/-- The grammar derives the token list as an expression, a term or a factor. -/
def Derives (l : Level) (ts : List Token) : Prop :=
  ∃ tree : Tree, tree.Valid ∧ l.precedence ≤ tree.level.precedence ∧ tree.spelling = ts

theorem Derives.mono (h : Derives l ts) (hle : l'.precedence ≤ l.precedence) : Derives l' ts := by
  obtain ⟨tree, hvalid, hlevel, hts⟩ := h
  exact ⟨tree, hvalid, Nat.le_trans hle hlevel, hts⟩

theorem derives_operand (h : t.kind.isOperand = true) : Derives .factor [t] :=
  ⟨operand t, h, Nat.le_refl 3, rfl⟩

theorem Derives.group (h : Derives .expression ts) (hopening : opening.kind = .opening)
    (hclosing : closing.kind = .closing) : Derives .factor (opening :: ts ++ [closing]) := by
  obtain ⟨tree, hvalid, _, rfl⟩ := h
  exact ⟨Tree.group opening tree closing, ⟨hopening, hclosing, hvalid⟩, Nat.le_refl 3, rfl⟩

theorem eq_factor_of_le {tree : Tree} (h : Level.factor.precedence ≤ tree.level.precedence) :
    tree.level = .factor := by
  cases hlevel : tree.level with
  | factor => rfl
  | term | expression =>
    rw [hlevel] at h
    exact absurd h (by decide)

theorem ne_expression_of_le {tree : Tree} (h : Level.term.precedence ≤ tree.level.precedence) :
    tree.level ≠ .expression := by
  intro hlevel
  rw [hlevel] at h
  exact absurd h (by decide)

theorem Derives.concat (hl : Derives .term ts) (hr : Derives .factor us) :
    Derives .term (ts ++ us) := by
  obtain ⟨left, hleft, hterm, rfl⟩ := hl
  obtain ⟨right, hright, hfactor, rfl⟩ := hr
  exact ⟨Tree.concat left (Token.concatBefore right.first) right,
    ⟨rfl, ne_expression_of_le hterm, eq_factor_of_le hfactor, hleft, hright⟩, Nat.le_refl 2, rfl⟩

theorem Derives.union (hl : Derives .expression ts) (hr : Derives .term us)
    (hkind : operator.kind = .union) : Derives .expression (ts ++ operator :: us) := by
  obtain ⟨left, hleft, _, rfl⟩ := hl
  obtain ⟨right, hright, hterm, rfl⟩ := hr
  exact ⟨Tree.union left operator right, ⟨hkind, ne_expression_of_le hterm, hleft, hright⟩,
    Nat.le_refl 1, rfl⟩

/-- A quantifier after a term repeats its last factor. -/
theorem Derives.quantified (h : Derives .term ts) (hkind : operator.kind.isQuantifier = true) :
    Derives .term (ts ++ [operator]) := by
  obtain ⟨tree, hvalid, hterm, rfl⟩ := h
  have hfactor : tree.level = .factor → Derives .term (tree.spelling ++ [operator]) := fun hlevel =>
    ⟨Tree.quantified tree operator, ⟨hkind, hlevel, hvalid⟩, Nat.le_succ 2, rfl⟩
  cases tree with
  | operand t => exact hfactor rfl
  | group opening body closing => exact hfactor rfl
  | quantified body last => exact hfactor rfl
  | concat left joiner right =>
    obtain ⟨hjoiner, hleft, hright, hl, hr⟩ := hvalid
    refine ⟨Tree.concat left joiner (Tree.quantified right operator),
      ⟨hjoiner, hleft, rfl, hl, hkind, hright, hr⟩, Nat.le_refl 2, ?_⟩
    simp only [spelling, List.append_assoc]
  | union left joiner right => exact absurd rfl (ne_expression_of_le hterm)

end Tree

/-! ## Reading from left to right -/

namespace Recovery

open RegexStepper.Tree

variable {ts before alternatives : List Token} {t : Token} {depth : Nat} {expecting : Bool}

/-- The alternatives of a group that are complete, each with the union after it. -/
inductive Alternatives : List Token → Prop where
  | none : Alternatives []
  | some {ts : List Token} {operator : Token} : Derives .expression ts → operator.kind = .union →
    Alternatives (ts ++ [operator])

/-- The term that is being read; nothing of it is there while a token is expected to begin it. -/
def Partial : Bool → List Token → Prop
  | true, ts => ts = []
  | false, ts => Derives .term ts

/-- What stands before the innermost of `depth` open groups and its parenthesis. -/
inductive Opened : Nat → List Token → Prop where
  | outside : Opened 0 []
  | group {depth : Nat} {before alternatives ts : List Token} {opening : Token}
    {expecting : Bool} : Opened depth before → Alternatives alternatives → Partial expecting ts →
    opening.kind = .opening → Opened (depth + 1) (before ++ alternatives ++ ts ++ [opening])

/-- The token list begins an expression, with `depth` groups open. -/
def Reads (depth : Nat) (expecting : Bool) (ts : List Token) : Prop :=
  ∃ before alternatives term, Opened depth before ∧ Alternatives alternatives ∧
    Partial expecting term ∧ ts = before ++ alternatives ++ term

theorem reads_nil : Reads 0 true [] :=
  ⟨[], [], [], .outside, .none, rfl, rfl⟩

/-- A term ends the expression that its alternatives begin. -/
theorem Alternatives.derives (h : Alternatives alternatives) (hts : Derives .term ts) :
    Derives .expression (alternatives ++ ts) := by
  cases h with
  | none => exact hts.mono (Nat.le_succ 1)
  | some hleft hkind =>
    rw [List.append_assoc]
    exact hleft.union hts hkind

/-- One more factor. -/
theorem Partial.append (h : Partial expecting ts) {us : List Token} (hus : Derives .factor us) :
    Derives .term (ts ++ us) := by
  cases expecting with
  | true =>
    cases h
    exact hus.mono (Nat.le_succ 2)
  | false => exact Derives.concat h hus

theorem Reads.factor (h : Reads depth expecting ts) {us : List Token} (hus : Derives .factor us) :
    Reads depth false (ts ++ us) := by
  obtain ⟨before, alternatives, term, hbefore, halternatives, hterm, rfl⟩ := h
  exact ⟨before, alternatives, term ++ us, hbefore, halternatives, hterm.append hus,
    List.append_assoc _ _ _⟩

theorem Reads.opening (h : Reads depth expecting ts) (hkind : t.kind = .opening) :
    Reads (depth + 1) true (ts ++ [t]) := by
  obtain ⟨before, alternatives, term, hbefore, halternatives, hterm, rfl⟩ := h
  refine ⟨_, [], [], .group hbefore halternatives hterm hkind, .none, rfl, ?_⟩
  rw [List.append_nil, List.append_nil]

/-- The end of a group makes a factor of what has been read since its start. -/
theorem Reads.closing (h : Reads (depth + 1) false ts) (hkind : t.kind = .closing) :
    Reads depth false (ts ++ [t]) := by
  obtain ⟨_, alternatives, term, hopened, halternatives, hterm, rfl⟩ := h
  cases hopened with
  | @group _ before alternatives' term' opening expecting hbefore halternatives' hterm' hopening =>
    have hgroup := (halternatives.derives hterm).group hopening hkind
    have houter : Reads depth expecting (before ++ alternatives' ++ term') :=
      ⟨before, alternatives', term', hbefore, halternatives', hterm', rfl⟩
    have hread := houter.factor hgroup
    simp only [List.append_assoc, List.cons_append, List.nil_append] at hread ⊢
    exact hread

theorem Reads.quantifier (h : Reads depth false ts) (hkind : t.kind.isQuantifier = true) :
    Reads depth false (ts ++ [t]) := by
  obtain ⟨before, alternatives, term, hbefore, halternatives, hterm, rfl⟩ := h
  exact ⟨before, alternatives, term ++ [t], hbefore, halternatives,
    Derives.quantified hterm hkind, List.append_assoc _ _ _⟩

theorem Reads.union (h : Reads depth false ts) (hkind : t.kind = .union) :
    Reads depth true (ts ++ [t]) := by
  obtain ⟨before, alternatives, term, hbefore, halternatives, hterm, rfl⟩ := h
  refine ⟨before, alternatives ++ term ++ [t], [], hbefore,
    .some (halternatives.derives hterm) hkind, rfl, ?_⟩
  simp only [List.append_assoc, List.append_nil]

/-- Where no group is open and no token is expected, an expression is read. -/
theorem Reads.derives (h : Reads 0 false ts) : Derives .expression ts := by
  obtain ⟨_, alternatives, term, hopened, halternatives, hterm, rfl⟩ := h
  cases hopened
  exact halternatives.derives hterm

/-! ## Defects -/

/-- The places where an expression is missing: a token that begins none where one is expected, or
the end of the list there. -/
def defects : Bool → List Token → Nat
  | expecting, [] => if expecting then 1 else 0
  | expecting, t :: rest =>
    (if expecting && !t.kind.beginsExpression then 1 else 0) +
      defects (!t.kind.endsExpression) rest

/-- **One token** goes on with what has been read: a token that begins no expression stands where
none is expected, and one that ends none leaves one expected. -/
theorem Reads.step (h : Reads depth expecting before) (hwritten : t.Written)
    (hfit : t.kind.beginsExpression = false → expecting = false)
    (hcloses : ReversePolish.Closes depth (t :: ts)) :
    ∃ depth', Reads depth' (!t.kind.endsExpression) (before ++ [t]) ∧
      ReversePolish.Closes depth' ts := by
  cases hkind : t.kind <;> rw [hkind] at hfit
  case literal | epsilon =>
    refine ⟨depth, h.factor (derives_operand ?_), ?_⟩
    · rw [hkind]
      rfl
    · exact (ReversePolish.closes_other (by simp [hkind]) (by simp [hkind])).mp hcloses
  case star | plus | optional =>
    obtain rfl := hfit rfl
    refine ⟨depth, h.quantifier ?_, ?_⟩
    · rw [hkind]
      rfl
    · exact (ReversePolish.closes_other (by simp [hkind]) (by simp [hkind])).mp hcloses
  case union =>
    obtain rfl := hfit rfl
    refine ⟨depth, h.union hkind, ?_⟩
    exact (ReversePolish.closes_other (by simp [hkind]) (by simp [hkind])).mp hcloses
  case opening =>
    exact ⟨depth + 1, h.opening hkind, (ReversePolish.closes_opening hkind).mp hcloses⟩
  case closing =>
    obtain rfl := hfit rfl
    obtain ⟨outer, rfl, houter⟩ := (ReversePolish.closes_closing hkind).mp hcloses
    exact ⟨outer, h.closing hkind, houter⟩
  case concat => exact absurd hkind hwritten.kind_ne_concat
  case other name => exact absurd hkind (hwritten.kind_ne_other name)

/-- **A list without defects whose parentheses match** completes what has been read. -/
theorem Reads.append (h : Reads depth expecting before) (hwritten : ∀ t ∈ ts, t.Written)
    (hdefects : defects expecting ts = 0) (hcloses : ReversePolish.Closes depth ts) :
    Derives .expression (before ++ ts) := by
  induction ts generalizing depth expecting before with
  | nil =>
    obtain rfl : depth = 0 := hcloses
    cases expecting with
    | true => cases hdefects
    | false =>
      rw [List.append_nil]
      exact h.derives
  | cons t rest ih =>
    obtain ⟨hhere, hlater⟩ := Nat.add_eq_zero_iff.mp hdefects
    have hfit : t.kind.beginsExpression = false → expecting = false := by
      intro hbegins
      rw [hbegins] at hhere
      cases expecting with
      | true => cases hhere
      | false => rfl
    obtain ⟨depth', hread, hcloses'⟩ := h.step (hwritten t List.mem_cons_self) hfit hcloses
    rw [← List.singleton_append, ← List.append_assoc]
    exact ih hread (fun u hu => hwritten u (List.mem_cons_of_mem t hu)) hlater hcloses'

/-- Nowhere in the list is an expression missing: not at its ends, and not between two tokens, as
in an empty group, in an empty alternative or before a quantifier. -/
structure Gapless (ts : List Token) : Prop where
  first : ∀ t ∈ ts.head?, t.kind.beginsExpression = true
  last : ∀ t ∈ ts.getLast?, t.kind.endsExpression = true
  inner : ∀ left right, [left, right] <:+: ts →
    left.kind.endsExpression = true ∨ right.kind.beginsExpression = true

theorem begins_of_defects (h : defects true (t :: ts) = 0) : t.kind.beginsExpression = true := by
  obtain ⟨hhere, _⟩ := Nat.add_eq_zero_iff.mp h
  by_cases hbegins : t.kind.beginsExpression = true
  · exact hbegins
  · rw [Bool.not_eq_true] at hbegins
    rw [hbegins] at hhere
    cases hhere

theorem ends_of_defects (h : defects (!t.kind.endsExpression) [] = 0) :
    t.kind.endsExpression = true := by
  by_cases hends : t.kind.endsExpression = true
  · exact hends
  · rw [Bool.not_eq_true] at hends
    rw [hends] at h
    cases h

theorem last_ends_of_defects (h : defects expecting ts = 0) :
    ∀ t ∈ ts.getLast?, t.kind.endsExpression = true := by
  induction ts generalizing expecting with
  | nil => exact fun t ht => absurd ht (Option.not_mem_none t)
  | cons t rest ih =>
    obtain ⟨_, hlater⟩ := Nat.add_eq_zero_iff.mp h
    cases rest with
    | nil =>
      intro u hu
      cases hu
      exact ends_of_defects hlater
    | cons next rest =>
      rw [List.getLast?_cons_cons]
      exact ih hlater

theorem inner_of_defects (h : defects expecting ts = 0) {left right : Token}
    (hin : [left, right] <:+: ts) :
    left.kind.endsExpression = true ∨ right.kind.beginsExpression = true := by
  induction ts generalizing expecting with
  | nil => cases List.infix_nil.mp hin
  | cons t rest ih =>
    obtain ⟨_, hlater⟩ := Nat.add_eq_zero_iff.mp h
    rcases List.infix_cons_iff.mp hin with hprefix | hin
    · obtain ⟨after, hafter⟩ := hprefix
      cases hafter
      by_cases hends : left.kind.endsExpression = true
      · exact Or.inl hends
      · rw [Bool.not_eq_true] at hends
        rw [hends] at hlater
        exact Or.inr (begins_of_defects hlater)
    · exact ih hlater hin

theorem gapless_nil : Gapless [] :=
  ⟨fun t ht => absurd ht (Option.not_mem_none t), fun t ht => absurd ht (Option.not_mem_none t),
    fun _ _ hin => absurd (List.infix_nil.mp hin) (List.cons_ne_nil _ _)⟩

/-- A list without defects has no gap. -/
theorem gapless_of_defects (h : defects true ts = 0) : Gapless ts := by
  refine ⟨fun t ht => ?_, last_ends_of_defects h, fun left right => inner_of_defects h⟩
  cases ts with
  | nil => cases ht
  | cons first rest =>
    obtain rfl := Option.some.inj ht
    exact begins_of_defects h

/-! ## Counting defects -/

/-- What a token adds is the expression it begins, less the one it leaves to come. -/
theorem growth_eq {k : Kind} (h : ∀ name, k ≠ .other name) :
    k.growth = (if k.beginsExpression then 1 else 0) - (if k.endsExpression then 0 else 1) := by
  cases k with
  | other name => exact absurd rfl (h name)
  | _ => rfl

theorem balance_link (left right : Token) : ReversePolish.balance (Token.link left right) =
    -(if left.kind.endsExpression && right.kind.beginsExpression then 1 else 0) := by
  unfold Token.link Token.junction
  split <;> rfl

/-- **Each defect lowers the balance by one.** -/
theorem balance_joinAfter (hwritten : ∀ t ∈ ts, t.Written) (left : Token) :
    ReversePolish.balance (Token.joinAfter left ts) =
      (if left.kind.endsExpression then 0 else 1) - defects (!left.kind.endsExpression) ts := by
  induction ts generalizing left with
  | nil => cases left.kind.endsExpression <;> rfl
  | cons t rest ih =>
    have hrest := ih (fun u hu => hwritten u (List.mem_cons_of_mem t hu)) t
    have hgrowth := growth_eq (hwritten t List.mem_cons_self).kind_ne_other
    rw [Token.joinAfter_cons, ReversePolish.balance_append, ReversePolish.balance, balance_link,
      hrest, hgrowth, defects]
    cases left.kind.endsExpression <;> cases t.kind.beginsExpression <;> simp <;> omega

theorem balance_join (hwritten : ∀ t ∈ ts, t.Written) :
    ReversePolish.balance (Token.join ts) = 1 - defects true ts := by
  rw [Token.join_eq_joinAfter, balance_joinAfter hwritten]
  rfl

/-- Joining does not touch the parentheses. -/
theorem closes_joinAfter (left : Token) :
    ReversePolish.Closes depth (Token.joinAfter left ts) ↔ ReversePolish.Closes depth ts := by
  induction ts generalizing left depth with
  | nil => rfl
  | cons t rest ih =>
    have htail : ReversePolish.Closes depth (t :: Token.joinAfter t rest) ↔
        ReversePolish.Closes depth (t :: rest) := by
      simp only [ReversePolish.Closes, ih]
    rw [Token.joinAfter_cons, ← htail]
    unfold Token.link
    split
    · exact ReversePolish.closes_other (t := Token.concatBefore t) (by simp [Token.concatBefore])
        (by simp [Token.concatBefore])
    · rfl

theorem closes_join :
    ReversePolish.Closes depth (Token.join ts) ↔ ReversePolish.Closes depth ts := by
  rw [Token.join_eq_joinAfter, closes_joinAfter]

/-! ## What is compiled -/

/-- A list that leaves one expression has no defect, and its parentheses match. -/
theorem defects_eq_zero (hwritten : ∀ t ∈ ts, t.Written) {output : List Token} {r : Regex}
    (h : ReversePolish.ofTokens (Token.join ts) = .ok output)
    (hr : ReversePolish.regex? output = some r) :
    defects true ts = 0 ∧ ReversePolish.Closes 0 ts := by
  have harranged := ReversePolish.arranged_of_ofTokens h
  have hlength := ReversePolish.length_of_evaluate? (ReversePolish.regex?_eq_some_iff.mp hr)
  rw [harranged.balance_eq, balance_join hwritten] at hlength
  simp only [List.length_cons, List.length_nil, ReversePolish.balance] at hlength
  exact ⟨by omega, closes_join.mp harranged.closes⟩

/-- **Only what the grammar derives is compiled**, and to what it means. -/
theorem spells_of_ofTokens (hwritten : ∀ t ∈ ts, t.Written) {output : List Token} {r : Regex}
    (h : ReversePolish.ofTokens (Token.join ts) = .ok output)
    (hr : ReversePolish.regex? output = some r) : Spells ts r := by
  obtain ⟨hdefects, hcloses⟩ := defects_eq_zero hwritten h hr
  obtain ⟨tree, hvalid, _, hts⟩ := reads_nil.append hwritten hdefects hcloses
  have hspells : Spells ts tree.regex := ⟨tree, hvalid, hts, rfl⟩
  obtain ⟨output', h', hr'⟩ := ofTokens_of_spells hspells
  obtain rfl : output' = output := Except.ok.inj (h'.symm.trans h)
  obtain rfl : tree.regex = r := Option.some.inj (hr'.symm.trans hr)
  exact hspells

/-- What the grammar derives has no gap. -/
theorem gapless_of_spells (hwritten : ∀ t ∈ ts, t.Written) {r : Regex} (h : Spells ts r) :
    Gapless ts := by
  obtain ⟨output, houtput, hr⟩ := ofTokens_of_spells h
  exact gapless_of_defects (defects_eq_zero hwritten houtput hr).1

end Recovery

end RegexStepper

import RegexStepper.Proofs.Printing

/-!
# What a printed list with its concatenations tells

A literal that looks like a concatenation is printed as one, yet where the concatenations of a
pattern are written out, the token before tells the two apart. Between a token that ends an
expression and one that begins an expression a concatenation is always written, and it is written
nowhere else; so the sign is a concatenation behind a token that ends an expression, and a literal
anywhere else. `Token.resolve` reads a list on this rule.

Headlines:
* `Token.resolve_joinAfter`: the rule finds out the tokens of a joined list from what a reader takes
  them for;
* **`printed_joined_told_apart`**: the printed text of the joined tokens of a pattern determines
  their kinds and values.
-/

namespace RegexStepper

namespace Token

variable {t left : Token} {ts : List Token} {ends : Bool}

/-- What tokens are that a reader takes for the ones given. `ends` tells whether the token before
ends an expression: where it does not, a concatenation is a literal that looks like one. -/
def resolve (ends : Bool) : List (Kind × Option String) → List (Kind × Option String)
  | [] => []
  | f :: rest =>
    let face := if ends = false ∧ f.1 = .concat then (.literal, some concatSign) else f
    face :: resolve face.1.endsExpression rest

/-- A concatenation behind a token that ends an expression is one. -/
theorem resolve_shown_concatBefore (right : Token) (rest : List (Kind × Option String)) :
    resolve true ((concatBefore right).shown :: rest) =
      (concatBefore right).face :: resolve false rest := rfl

/-- A token that is no concatenation is found out, if it does not look like one or follows a token
that ends nothing. -/
theorem resolve_shown (hkind : t.kind ≠ .concat) (hdot : t.IsDot → ends = false)
    (rest : List (Kind × Option String)) :
    resolve ends (t.shown :: rest) = t.face :: resolve t.kind.endsExpression rest := by
  by_cases h : t.IsDot
  · obtain rfl := hdot h
    have hface : t.face = (.literal, some concatSign) := Prod.ext h.1 h.2
    rw [shown, if_pos h, hface, h.1]
    rfl
  · have hkeep : ¬ (ends = false ∧ t.face.1 = .concat) := fun hf => hkind hf.2
    rw [shown_of_not_isDot h, resolve, if_neg hkeep]
    rfl

/-- What a token is taken for is a matter of its kind and value. -/
theorem map_shown_of_face {us : List Token} (h : ts.map face = us.map face) :
    ts.map shown = us.map shown := by
  have hshown : ∀ vs : List Token,
      vs.map shown = (vs.map face).map fun f => shown ⟨f.1, f.2, none⟩ := by
    intro vs
    rw [List.map_map]
    rfl
  rw [hshown ts, hshown us, h]

/-- A literal begins an expression. -/
theorem IsDot.beginsExpression (h : t.IsDot) : t.kind.beginsExpression = true := by
  rw [h.1]
  rfl

/-- **The tokens of a joined list are found out** from what a reader takes them for. -/
theorem resolve_joinAfter (hts : ∀ t ∈ ts, t.kind ≠ .concat) (left : Token) :
    resolve left.kind.endsExpression ((joinAfter left ts).map shown) =
      (joinAfter left ts).map face := by
  induction ts generalizing left with
  | nil => rfl
  | cons right rest ih =>
    have hkind := hts right List.mem_cons_self
    have hrest := ih (fun t ht => hts t (List.mem_cons_of_mem right ht)) right
    rw [joinAfter_cons, List.map_append, List.map_append, List.map_cons, List.map_cons, ← hrest]
    by_cases hjunction : junction left right = true
    · -- behind the concatenation, which ends nothing, no other one is written
      obtain ⟨hleft, hright⟩ := Bool.and_eq_true_iff.mp hjunction
      rw [link_of_ends_of_begins hleft hright, hleft]
      exact (resolve_shown_concatBefore right _).trans
        (congrArg _ (resolve_shown hkind (fun _ => rfl) _))
    · have hdot : right.IsDot → left.kind.endsExpression = false := fun h =>
        Bool.eq_false_iff.mpr fun hleft =>
          hjunction (Bool.and_eq_true_iff.mpr ⟨hleft, h.beginsExpression⟩)
      rw [link, if_neg hjunction]
      exact resolve_shown hkind hdot _

/-- The start of a list ends nothing. -/
theorem resolve_join (hts : ∀ t ∈ ts, t.kind ≠ .concat) :
    resolve false ((join ts).map shown) = (join ts).map face := by
  rw [join_eq_joinAfter]
  exact resolve_joinAfter hts ⟨.opening, none, none⟩

/-- A pattern writes no concatenation, so its joined list is found out. -/
theorem resolve_of_joinedOfPattern {pattern : String} {joined : List Token}
    (h : joinedOfPattern pattern = .ok joined) :
    resolve false (joined.map shown) = joined.map face := by
  obtain ⟨ts, hts, rfl⟩ := map_eq_ok.mp h
  exact resolve_join fun t ht => (written_of_lexFrom hts t ht).kind_ne_concat

end Token

open Token

variable {p q : String} {ts us : List Token}

/-- **What the printed joined tokens tell.** They are there for every pattern that can be read. A
literal that looks like a concatenation is printed as one; and yet the text can be read back into
the kinds and values of the tokens, so that two patterns have the same text iff their joined tokens
have the same kinds and values in the same order. -/
theorem printed_joined_told_apart (hp : joinedOfPattern p = .ok ts)
    (hq : joinedOfPattern q = .ok us) :
    (∀ t ∈ ts, t.IsDot → t.piece = (concatBefore t).piece) ∧
    (∃ text, textOf ts = .ok text ∧ resolve false (readBack text.toList) = ts.map face) ∧
    (textOf ts = textOf us ↔ ts.map face = us.map face) := by
  have hts := regular_of_joinedOfPattern hp
  have hus := regular_of_joinedOfPattern hq
  refine ⟨fun t _ hdot => ?_, ?_, (textOf_eq_iff hts hus).trans ⟨fun h => ?_, fun h => ?_⟩⟩
  · rw [← piece_shown, shown, if_pos hdot]
    rfl
  · obtain ⟨text, htext, hread⟩ := exists_textOf_readBack hts
    exact ⟨text, htext, by rw [hread, resolve_of_joinedOfPattern hp]⟩
  · rw [← resolve_of_joinedOfPattern hp, ← resolve_of_joinedOfPattern hq, h]
  · exact map_shown_of_face h

/-- Literals that look like concatenations, one behind a backslash and one not, at the start, behind
an operator, behind a concatenation and before a quantifier. -/
theorem printed_joined_told_apart_dots :
    ∃ ts us, joinedOfPattern "·|(··*)" = .ok ts ∧ joinedOfPattern "\\·|(·\\·*)" = .ok us ∧
      textOf ts = .ok "·|(···*)" ∧ ts ≠ us ∧ ts.map face = us.map face := by
  have hts : joinedOfPattern "·|(··*)" = .ok _ := rfl
  have hus : joinedOfPattern "\\·|(·\\·*)" = .ok _ := rfl
  refine ⟨_, _, hts, hus, rfl, by decide, ?_⟩
  exact (printed_joined_told_apart hts hus).2.2.mp rfl

end RegexStepper

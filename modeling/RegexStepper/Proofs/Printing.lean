import RegexStepper.Proofs.Refusal

/-!
# What a printed token list tells

The tokens of a pattern are `Token.Regular`: a literal carries one character, an operator its own,
and the empty string and a concatenation carry none. `Token.readBack` reads a printed list: behind a
backslash stands a literal, and any other character tells its token by itself.

One token is misread. A literal is written behind a backslash if it looks like an operator, the
backslash or the empty string, but not if it looks like a concatenation (`Token.IsDot`).
`Token.shown` is what a reader takes a token for.

Headlines:
* `Token.textOf_eq_iff`: regular lists print alike iff a reader takes them for the same;
* **`printed_postfix_ambiguous`**: two patterns with different meanings print alike in reverse
  Polish order;
* **`printed_postfix_told_apart`**: how far the printed text determines the tokens, and that it
  does where no literal looks like a concatenation.
-/

namespace RegexStepper

namespace Token

variable {t u : Token} {ts us : List Token}

/-! ## Regular tokens -/

/-- A token that carries what its kind does in a pattern. -/
inductive Regular : Token → Prop where
  | literal (c : Char) (position : Option Int) : Regular ⟨.literal, some c.toString, position⟩
  | epsilon (position : Option Int) : Regular ⟨.epsilon, none, position⟩
  | concat (position : Option Int) : Regular ⟨.concat, none, position⟩
  | operator {c : Char} {kind : Kind} (position : Option Int) :
    Kind.ofOperator? c = some kind → Regular ⟨kind, some c.toString, position⟩

theorem regular_ofPlain (c : Char) (position : Int) : (ofPlain c position).Regular := by
  unfold ofPlain
  split
  · rename_i kind hkind
    exact .operator _ hkind
  · exact .literal c _

theorem regular_ofEscaped (c : Char) (position : Int) : (ofEscaped c position).Regular := by
  unfold ofEscaped
  split
  · exact .epsilon _
  · exact .literal c _

/-- **The tokens of a pattern are regular**, and the concatenations written between them. -/
theorem regular_of_joinedOfPattern {pattern : String} {joined : List Token}
    (h : joinedOfPattern pattern = .ok joined) : ∀ t ∈ joined, t.Regular :=
  forall_of_joinedOfPattern h (fun c n _ => regular_ofPlain c n)
    (fun c n _ => regular_ofEscaped c n) fun t _ => .concat t.position

/-- So they are in reverse Polish order. -/
theorem regular_of_ofPattern {pattern : String} {output : List Token}
    (h : ReversePolish.ofPattern pattern = .ok output) : ∀ t ∈ output, t.Regular := by
  obtain ⟨joined, hjoined, hmem⟩ := ReversePolish.mem_joined_of_ofPattern h
  exact fun t ht => regular_of_joinedOfPattern hjoined t (hmem t ht)

/-! ## What a reader takes a token for -/

/-- What a token is, wherever it stands. -/
def face (t : Token) : Kind × Option String :=
  (t.kind, t.value)

/-- A literal that looks like a concatenation. -/
def IsDot (t : Token) : Prop :=
  t.kind = .literal ∧ t.value = some concatSign

instance : DecidablePred IsDot := fun t =>
  inferInstanceAs (Decidable (t.kind = .literal ∧ t.value = some concatSign))

theorem isDot_literal_iff {c : Char} {position : Option Int} :
    IsDot ⟨.literal, some c.toString, position⟩ ↔ c = '·' := by
  constructor
  · rintro ⟨_, hvalue⟩
    exact String.singleton_inj.mp (Option.some.inj hvalue)
  · rintro rfl
    exact ⟨rfl, rfl⟩

/-- What a reader of the printed text takes a token for. -/
def shown (t : Token) : Kind × Option String :=
  if t.IsDot then (.concat, none) else t.face

theorem shown_of_not_isDot (h : ¬ t.IsDot) : t.shown = t.face := if_neg h

/-- A token is printed as what it is taken for. -/
theorem piece_shown (t : Token) : piece ⟨t.shown.1, t.shown.2, none⟩ = t.piece := by
  by_cases h : t.IsDot
  · have hconcat : literalText concatSign = concatSign := by decide
    simp [shown, h, piece, h.1, h.2, hconcat]
  · rw [shown_of_not_isDot h]
    rfl

/-- Lists that are taken for the same are printed alike. -/
theorem textOf_eq_of_shown (h : ts.map shown = us.map shown) : textOf ts = textOf us := by
  have hpieces : ∀ vs : List Token,
      vs.mapM piece = (vs.map shown).mapM fun f => piece ⟨f.1, f.2, none⟩ := by
    intro vs
    rw [List.mapM_map]
    refine congrArg (vs.mapM ·) (funext fun v => ?_)
    exact (piece_shown v).symm
  unfold textOf
  rw [hpieces ts, hpieces us, h]

/-! ## Reading a printed list -/

/-- What a character stands for that follows no backslash. -/
def readPlain (c : Char) : Kind × Option String :=
  if c = 'ε' then (.epsilon, none)
  else if c = '·' then (.concat, none)
  else match Kind.ofOperator? c with
    | some kind => (kind, some c.toString)
    | none => (.literal, some c.toString)

/-- What the characters of a printed list stand for. -/
def readBack : List Char → List (Kind × Option String)
  | [] => []
  | '\\' :: c :: rest => (.literal, some c.toString) :: readBack rest
  | c :: rest => readPlain c :: readBack rest

theorem readBack_plain {c : Char} (hc : c ≠ '\\') (rest : List Char) :
    readBack (c :: rest) = readPlain c :: readBack rest := by
  cases rest <;> simp [readBack, hc]

/-- The characters that are written behind a backslash where they are literals. -/
def escapedChars : List Char := ['|', '*', '+', '?', '(', ')', '\\', 'ε']

theorem toString_mem_escapedTexts (c : Char) : c.toString ∈ escapedTexts ↔ c ∈ escapedChars := by
  have hmap : escapedTexts = escapedChars.map Char.toString := by decide
  rw [hmap, List.mem_map]
  constructor
  · rintro ⟨d, hd, heq⟩
    exact String.singleton_inj.mp heq ▸ hd
  · exact fun h => ⟨c, h, rfl⟩

/-- A character that is written as it is is no backslash. -/
theorem ne_backslash {c : Char} (h : c ∉ escapedChars) : c ≠ '\\' := by
  rintro rfl
  exact h (by decide)

/-- Nor is it an operator. -/
theorem ofOperator?_eq_none {c : Char} (h : c ∉ escapedChars) : Kind.ofOperator? c = none := by
  simp only [escapedChars, List.mem_cons, List.not_mem_nil, or_false, not_or] at h
  unfold Kind.ofOperator?
  split <;> simp_all

/-- A literal that is written as it is stands for itself, or for a concatenation if it looks like
one. -/
theorem readPlain_literal {c : Char} (h : c ∉ escapedChars) (position : Option Int) :
    readPlain c = shown ⟨.literal, some c.toString, position⟩ := by
  have hoperator := ofOperator?_eq_none h
  have hepsilon : c ≠ 'ε' := by
    rintro rfl
    exact h (by decide)
  by_cases hdot : c = '·'
  · subst hdot
    rfl
  · rw [shown_of_not_isDot (isDot_literal_iff.not.mpr hdot)]
    simp [readPlain, face, hoperator, hdot, hepsilon]

/-- The characters that a token of a pattern is printed as. -/
inductive PrintedAs : Token → List Char → Prop where
  | escaped {c : Char} (position : Option Int) : c ∈ escapedChars →
    PrintedAs ⟨.literal, some c.toString, position⟩ ['\\', c]
  | plain {c : Char} (position : Option Int) : c ∉ escapedChars →
    PrintedAs ⟨.literal, some c.toString, position⟩ [c]
  | epsilon (position : Option Int) : PrintedAs ⟨.epsilon, none, position⟩ ['ε']
  | concat (position : Option Int) : PrintedAs ⟨.concat, none, position⟩ ['·']
  | operator {c : Char} {kind : Kind} (position : Option Int) :
    Kind.ofOperator? c = some kind → PrintedAs ⟨kind, some c.toString, position⟩ [c]

theorem Regular.exists_printedAs (h : t.Regular) :
    ∃ text, t.piece = .ok (some text) ∧ t.PrintedAs text.toList := by
  cases h with
  | literal c position =>
    have htoList : c.toString.toList = [c] := String.toList_singleton c
    by_cases hc : c ∈ escapedChars
    · have htext : literalText c.toString = "\\" ++ c.toString :=
        if_pos ((toString_mem_escapedTexts c).mpr hc)
      refine ⟨_, rfl, ?_⟩
      rw [htext, String.toList_append, htoList]
      exact .escaped position hc
    · have htext : literalText c.toString = c.toString :=
        if_neg fun hmem => hc ((toString_mem_escapedTexts c).mp hmem)
      refine ⟨_, rfl, ?_⟩
      rw [htext, htoList]
      exact .plain position hc
  | epsilon position => exact ⟨_, rfl, .epsilon position⟩
  | concat position => exact ⟨_, rfl, .concat position⟩
  | operator position hkind =>
    refine Kind.operator_cases ?_ ?_ ?_ ?_ ?_ ?_ hkind <;>
      exact ⟨_, rfl, .operator position rfl⟩

/-- **A printed token is read back** as what it is taken for, whatever follows it. -/
theorem PrintedAs.readBack {cs : List Char} (h : t.PrintedAs cs) (rest : List Char) :
    Token.readBack (cs ++ rest) = t.shown :: Token.readBack rest := by
  cases h with
  | @escaped c position hc =>
    have hdot : ¬ IsDot ⟨.literal, some c.toString, position⟩ := by
      rw [isDot_literal_iff]
      rintro rfl
      revert hc
      decide
    rw [shown_of_not_isDot hdot]
    rfl
  | plain position hc =>
    rw [← readPlain_literal hc]
    exact readBack_plain (ne_backslash hc) rest
  | epsilon position => rfl
  | concat position => rfl
  | operator position hkind => refine Kind.operator_cases ?_ ?_ ?_ ?_ ?_ ?_ hkind <;> rfl

/-- **A printed list is read back.** -/
theorem exists_textOf_readBack (h : ∀ t ∈ ts, t.Regular) :
    ∃ text, textOf ts = .ok text ∧ readBack text.toList = ts.map shown := by
  obtain ⟨texts, htexts, hprinted⟩ := exists_textOf_join fun t ht => (h t ht).exists_printedAs
  refine ⟨_, htexts, ?_⟩
  clear h htexts
  induction hprinted with
  | nil => rfl
  | cons hprinted _ ih =>
    rw [String.join_cons, String.toList_append, hprinted.readBack, ih, List.map_cons]

/-- **Regular lists print alike iff a reader takes them for the same.** -/
theorem textOf_eq_iff (hts : ∀ t ∈ ts, t.Regular) (hus : ∀ u ∈ us, u.Regular) :
    textOf ts = textOf us ↔ ts.map shown = us.map shown := by
  refine ⟨fun h => ?_, textOf_eq_of_shown⟩
  obtain ⟨text, htext, hread⟩ := exists_textOf_readBack hts
  obtain ⟨text', htext', hread'⟩ := exists_textOf_readBack hus
  obtain rfl : text = text' := Except.ok.inj (htext.symm.trans (h.trans htext'))
  rw [← hread, hread']

/-! ## Literals that look like concatenations -/

/-- How many literals of a list look like concatenations. -/
def dots (ts : List Token) : Nat :=
  ts.countP fun t => t.IsDot

theorem dots_cons (t : Token) (ts : List Token) :
    dots (t :: ts) = dots ts + if t.IsDot then 1 else 0 := by
  simp [dots, List.countP_cons]

theorem dots_eq_zero_iff : dots ts = 0 ↔ ∀ t ∈ ts, ¬ t.IsDot := by
  simp [dots, List.countP_eq_zero]

theorem map_shown_of_dots (h : dots ts = 0) : ts.map shown = ts.map face :=
  List.map_congr_left fun t ht => shown_of_not_isDot (dots_eq_zero_iff.mp h t ht)

/-- Taking a literal for a concatenation lowers the balance by two: one operand fewer, one operator
more. -/
theorem growth_eq_of_shown (t : Token) :
    t.kind.growth = t.shown.1.growth + 2 * ((if t.IsDot then 1 else 0 : Nat) : Int) := by
  by_cases h : t.IsDot
  · rw [shown, if_pos h, if_pos h, h.1]
    rfl
  · rw [shown_of_not_isDot h, if_neg h]
    simp [face]

/-- So lists that are taken for the same differ in their balance by the literals taken for
concatenations. -/
theorem balance_add_dots (h : ts.map shown = us.map shown) :
    ReversePolish.balance ts + 2 * dots us = ReversePolish.balance us + 2 * dots ts := by
  induction ts generalizing us with
  | nil =>
    obtain rfl : us = [] := List.map_eq_nil_iff.mp h.symm
    rfl
  | cons t ts ih =>
    cases us with
    | nil => cases h
    | cons u us =>
      obtain ⟨hhead, htail⟩ := List.cons.inj h
      have ht := growth_eq_of_shown t
      have hu := growth_eq_of_shown u
      have hrest := ih htail
      rw [hhead] at ht
      rw [ReversePolish.balance, ReversePolish.balance, dots_cons, dots_cons]
      omega

/-- Two expressions that are taken for the same have as many literals that look like
concatenations. -/
theorem dots_eq_of_shown {r r' : Regex} (hr : ReversePolish.regex? ts = some r)
    (hr' : ReversePolish.regex? us = some r') (h : ts.map shown = us.map shown) :
    dots ts = dots us := by
  have hbalance : ∀ {vs : List Token} {s : Regex}, ReversePolish.regex? vs = some s →
      ReversePolish.balance vs = 1 := by
    intro vs s hs
    have hlength := ReversePolish.length_of_evaluate? (ReversePolish.regex?_eq_some_iff.mp hs)
    simpa using hlength.symm
  have hsame := balance_add_dots h
  rw [hbalance hr, hbalance hr'] at hsame
  omega

end Token

open Token

variable {p q : String} {ts us : List Token}

/-- **What the printed reverse Polish order tells.** It is there for every pattern that is reordered.
Two of them agree iff a reader takes the tokens for the same, so that at most a literal and a
concatenation at one place are confused. They are not, and the tokens have the same kinds and values
in the same order, where no literal looks like a concatenation; if each list is one expression, it
is enough that one of them has no such literal. -/
theorem printed_postfix_told_apart (hp : ReversePolish.ofPattern p = .ok ts)
    (hq : ReversePolish.ofPattern q = .ok us) :
    (∃ text, textOf ts = .ok text) ∧
    (textOf ts = textOf us ↔ ts.map shown = us.map shown) ∧
    ((∀ t ∈ ts, ¬ t.IsDot) → textOf ts = textOf us →
      ((∀ u ∈ us, ¬ u.IsDot) ∨
        ((∃ r, ReversePolish.regex? ts = some r) ∧ ∃ r, ReversePolish.regex? us = some r)) →
      ts.map face = us.map face) := by
  have hts := regular_of_ofPattern hp
  have hus := regular_of_ofPattern hq
  refine ⟨?_, textOf_eq_iff hts hus, fun hdots htext hother => ?_⟩
  · obtain ⟨text, htext, _⟩ := exists_textOf_readBack hts
    exact ⟨text, htext⟩
  · have hshown := (textOf_eq_iff hts hus).mp htext
    have hnone : dots ts = 0 := dots_eq_zero_iff.mpr hdots
    have hnone' : dots us = 0 := by
      rcases hother with hdots' | ⟨⟨r, hr⟩, r', hr'⟩
      · exact dots_eq_zero_iff.mpr hdots'
      · rw [← dots_eq_of_shown hr hr' hshown, hnone]
    rw [← map_shown_of_dots hnone, ← map_shown_of_dots hnone', hshown]

/-- A group that changes nothing but the places of the tokens. -/
theorem printed_postfix_told_apart_group :
    ∃ ts us, ReversePolish.ofPattern "ab*" = .ok ts ∧ ReversePolish.ofPattern "a(b)*" = .ok us ∧
      textOf ts = .ok "ab*·" ∧ ts ≠ us ∧ ts.map face = us.map face := by
  have hts : ReversePolish.ofPattern "ab*" = .ok _ := rfl
  have hus : ReversePolish.ofPattern "a(b)*" = .ok _ := rfl
  refine ⟨_, _, hts, hus, rfl, by decide, ?_⟩
  exact (printed_postfix_told_apart hts hus).2.2 (by decide) rfl (Or.inl (by decide))

/-- **The printed reverse Polish order is ambiguous**: one text stands for a choice between a symbol
and a pair, and for a choice between a pair and a symbol, because a literal that looks like a
concatenation is written as it is. -/
theorem printed_postfix_ambiguous :
    ∃ ts us, ReversePolish.ofPattern "a|··" = .ok ts ∧ ReversePolish.ofPattern "a·|·" = .ok us ∧
      textOf ts = .ok "a···|" ∧ textOf us = .ok "a···|" ∧ ts.map face ≠ us.map face ∧
      ReversePolish.regex? ts =
        some (.union (.symbol "a") (.concat (.symbol "·") (.symbol "·"))) ∧
      ReversePolish.regex? us =
        some (.union (.concat (.symbol "a") (.symbol "·")) (.symbol "·")) := by
  have hts : ReversePolish.ofPattern "a|··" = .ok _ := rfl
  have hus : ReversePolish.ofPattern "a·|·" = .ok _ := rfl
  exact ⟨_, _, hts, hus, rfl, rfl, by decide, rfl, rfl⟩

end RegexStepper

import RegexStepper.Grammar
import RegexStepper.ReversePolish

/-!
# Reordering a valid tree

`Arranges waiting ts emitted waiting'`: reading the tokens `ts` while the operators `waiting` wait
writes `emitted` and leaves the operators `waiting'`. Readings compose (`Arranges.append`), and each
kind of token is one lemma.

An expression is read over operators that bind less tightly than it (`Yields`). What is then
written, followed by those of its operators that still wait, is the expression in reverse Polish
order (`Reorders`), one lemma for each construct. Headlines: **`Tree.reorders`**, that this is the
postorder of a valid tree, and **`Tree.ofTokens_tokens`** for the tree as a whole.
-/

namespace RegexStepper

namespace ReversePolish

variable {waiting waiting' pending ts us emitted emitted' : List Token} {t : Token} {k : Kind}
  {p : Nat}

/-! ## The stack of operators -/

/-- An operator that binds at least as tightly as `p`. -/
def Binds (p : Nat) (t : Token) : Prop :=
  ∃ q, t.kind.precedence? = some q ∧ p ≤ q

/-- An incoming operator of precedence `p` releases nothing. -/
def Yields (p : Nat) (waiting : List Token) : Prop :=
  ∀ top ∈ waiting.head?, top.kind = .opening ∨ ∃ q, top.kind.precedence? = some q ∧ q < p

theorem Binds.kind_ne_opening (h : Binds p t) : t.kind ≠ .opening := by
  obtain ⟨q, hq, _⟩ := h
  intro hkind
  rw [hkind] at hq
  cases hq

theorem Binds.mono {q : Nat} (h : Binds p t) (hle : q ≤ p) : Binds q t := by
  obtain ⟨held, hheld, hp⟩ := h
  exact ⟨held, hheld, Nat.le_trans hle hp⟩

theorem yields_nil : Yields p [] := fun _ htop => absurd htop (Option.not_mem_none _)

theorem yields_opening (h : t.kind = .opening) : Yields p (t :: waiting) := by
  intro top htop
  obtain rfl := Option.some.inj htop
  exact Or.inl h

theorem yields_operator {q : Nat} (h : t.kind.precedence? = some q) (hlt : q < p) :
    Yields p (t :: waiting) := by
  intro top htop
  obtain rfl := Option.some.inj htop
  exact Or.inr ⟨q, h, hlt⟩

theorem Yields.mono {q : Nat} (h : Yields p waiting) (hle : p ≤ q) : Yields q waiting := by
  intro top htop
  rcases h top htop with hopening | ⟨held, hheld, hlt⟩
  · exact Or.inl hopening
  · exact Or.inr ⟨held, hheld, Nat.lt_of_lt_of_le hlt hle⟩

theorem precedence_eq (h : k.precedence? = some p) : precedence k = .ok p := by
  unfold precedence
  rw [h]

/-- Where nothing has to yield, nothing is released. -/
theorem release_of_yields (hk : k.precedence? = some p) (h : Yields p waiting) :
    release k waiting = .ok ([], waiting) := by
  cases waiting with
  | nil => rfl
  | cons top below =>
    unfold release
    rcases h top rfl with hopening | ⟨q, hq, hlt⟩
    · rw [if_pos hopening]
    · have hne : top.kind ≠ .opening := fun hopening => by rw [hopening] at hq; cases hq
      rw [if_neg hne, precedence_eq hq, precedence_eq hk]
      exact if_neg (Nat.not_le.mpr hlt)

/-- The operators that bind as tightly are released, down to one that binds less tightly. -/
theorem release_append (hk : k.precedence? = some p) (hpending : ∀ t ∈ pending, Binds p t)
    (h : Yields p waiting) : release k (pending ++ waiting) = .ok (pending, waiting) := by
  induction pending with
  | nil => exact release_of_yields hk h
  | cons top pending ih =>
    have htop := hpending top List.mem_cons_self
    obtain ⟨q, hq, hle⟩ := htop
    have hrest := ih fun t ht => hpending t (List.mem_cons_of_mem top ht)
    rw [List.cons_append, release, if_neg (hpending top List.mem_cons_self).kind_ne_opening,
      precedence_eq hq, precedence_eq hk, hrest]
    exact if_pos hle

/-- The end of a group releases the operators of the group. -/
theorem closeGroup_append (position : Option Int) (hpending : ∀ t ∈ pending, t.kind ≠ .opening)
    (h : t.kind = .opening) :
    closeGroup position (pending ++ t :: waiting) = .ok (pending, waiting) := by
  induction pending with
  | nil => exact if_pos h
  | cons top pending ih =>
    have hrest := ih fun t ht => hpending t (List.mem_cons_of_mem top ht)
    rw [List.cons_append, closeGroup, if_neg (hpending top List.mem_cons_self), hrest]
    rfl

/-- The end of the list releases all, where no group is open. -/
theorem drain_eq_self (h : ∀ t ∈ waiting, t.kind ≠ .opening) : drain waiting = .ok waiting := by
  induction waiting with
  | nil => rfl
  | cons top waiting ih =>
    rw [drain, if_neg (h top List.mem_cons_self),
      ih fun t ht => h t (List.mem_cons_of_mem top ht)]
    rfl

/-! ## Readings -/

/-- Reading `ts` while `waiting` waits writes `emitted` and leaves `waiting'`. -/
def Arranges (waiting ts emitted waiting' : List Token) : Prop :=
  ∀ rest, arrange waiting (ts ++ rest) = (emitted ++ ·) <$> arrange waiting' rest

/-- One reading after another. -/
theorem Arranges.append {waiting'' : List Token} (hts : Arranges waiting ts emitted waiting')
    (hus : Arranges waiting' us emitted' waiting'') :
    Arranges waiting (ts ++ us) (emitted ++ emitted') waiting'' := by
  intro rest
  rw [List.append_assoc, hts, hus, Functor.map_map]
  exact congrArg (· <$> _) (funext fun out => (List.append_assoc _ _ out).symm)

theorem arranges_operand (h : t.kind.isOperand = true) : Arranges waiting [t] [t] waiting := by
  intro rest
  rcases Kind.isOperand_iff.mp h with hkind | hkind <;> simp [arrange, hkind]

theorem arranges_opening (h : t.kind = .opening) : Arranges waiting [t] [] (t :: waiting) := by
  intro rest
  simp [arrange, h]

theorem arranges_closing {opening : Token} (h : t.kind = .closing)
    (hopening : opening.kind = .opening) (hpending : ∀ t ∈ pending, t.kind ≠ .opening) :
    Arranges (pending ++ opening :: waiting) [t] pending waiting := by
  intro rest
  simp only [List.singleton_append, arrange, h]
  rw [closeGroup_append t.position hpending hopening]
  rfl

/-- An operator releases what has to yield and waits itself. -/
theorem arrange_operator (hk : t.kind.precedence? = some p) (rest : List Token) :
    arrange waiting (t :: rest) =
      release t.kind waiting >>= fun out => (out.1 ++ ·) <$> arrange (t :: out.2) rest := by
  cases hkind : t.kind <;> rw [hkind] at hk
  case union | concat | star | plus | optional => simp only [arrange, hkind]
  all_goals cases hk

theorem arranges_operator (hk : t.kind.precedence? = some p)
    (hpending : ∀ t ∈ pending, Binds p t) (h : Yields p waiting) :
    Arranges (pending ++ waiting) [t] pending (t :: waiting) := by
  intro rest
  rw [List.singleton_append, arrange_operator hk, release_append hk hpending h]
  rfl

/-! ## Whole expressions -/

/-- Reading `ts` over `waiting` writes the first part of `output`. The second part still waits, and
it binds at least as tightly as `p`. -/
def Reorders (p : Nat) (waiting ts output : List Token) : Prop :=
  ∃ emitted pending, Arranges waiting ts emitted (pending ++ waiting) ∧
    emitted ++ pending = output ∧ ∀ t ∈ pending, Binds p t

variable {output output' : List Token} {operator opening closing : Token}

theorem Reorders.mono {q : Nat} (h : Reorders p waiting ts output) (hle : q ≤ p) :
    Reorders q waiting ts output := by
  obtain ⟨emitted, pending, hread, houtput, hbinds⟩ := h
  exact ⟨emitted, pending, hread, houtput, fun t ht => (hbinds t ht).mono hle⟩

theorem reorders_operand (h : t.kind.isOperand = true) : Reorders p waiting [t] [t] :=
  ⟨[t], [], arranges_operand h, rfl, fun _ ht => absurd ht List.not_mem_nil⟩

/-- A group keeps nothing waiting. -/
theorem Reorders.group {q : Nat} (hopening : opening.kind = .opening)
    (hclosing : closing.kind = .closing) (h : Reorders q (opening :: waiting) ts output) :
    Reorders p waiting (opening :: ts ++ [closing]) output := by
  obtain ⟨emitted, pending, hread, houtput, hbinds⟩ := h
  refine ⟨emitted ++ pending, [], ?_, (List.append_nil _).trans houtput,
    fun t ht => absurd ht List.not_mem_nil⟩
  exact ((arranges_opening hopening).append hread).append
    (arranges_closing hclosing hopening fun t ht => (hbinds t ht).kind_ne_opening)

/-- An operator after its operand. -/
theorem Reorders.quantified (hk : operator.kind.precedence? = some p) (hw : Yields p waiting)
    (h : Reorders p waiting ts output) :
    Reorders p waiting (ts ++ [operator]) (output ++ [operator]) := by
  obtain ⟨emitted, pending, hread, houtput, hbinds⟩ := h
  refine ⟨emitted ++ pending, [operator], hread.append (arranges_operator hk hbinds hw),
    by rw [houtput], fun t ht => ?_⟩
  obtain rfl := List.mem_singleton.mp ht
  exact ⟨p, hk, Nat.le_refl p⟩

/-- An operator between its operands: the left one is done when the operator comes, the right one
is read over it. -/
theorem Reorders.joined (hk : operator.kind.precedence? = some p) (hw : Yields p waiting)
    (hleft : Reorders p waiting ts output)
    (hright : Reorders p (operator :: waiting) us output') :
    Reorders p waiting (ts ++ operator :: us) (output ++ output' ++ [operator]) := by
  obtain ⟨emitted₁, pending₁, hread₁, houtput₁, hbinds₁⟩ := hleft
  obtain ⟨emitted₂, pending₂, hread₂, houtput₂, hbinds₂⟩ := hright
  refine ⟨emitted₁ ++ pending₁ ++ emitted₂, pending₂ ++ [operator], ?_, ?_, fun t ht => ?_⟩
  · have hread := (hread₁.append (arranges_operator hk hbinds₁ hw)).append hread₂
    rw [List.append_assoc ts, List.singleton_append] at hread
    rw [List.append_assoc pending₂, List.singleton_append]
    exact hread
  · rw [houtput₁, ← houtput₂]
    simp only [List.append_assoc]
  · rcases List.mem_append.mp ht with ht | ht
    · exact hbinds₂ t ht
    · obtain rfl := List.mem_singleton.mp ht
      exact ⟨p, hk, Nat.le_refl p⟩

/-! ## The checks at both ends -/

/-- A token that begins an expression passes the check of the start. -/
theorem checkStart_eq_ok (h : t.kind.beginsExpression = true) : checkStart t = .ok () := by
  unfold checkStart
  refine if_neg fun hoperator => ?_
  cases hkind : t.kind <;>
    simp_all [Kind.beginsExpression, Kind.isOperand, Kind.isJoiner, Kind.isQuantifier]

/-- A token that ends an expression passes the check of the end. -/
theorem checkEnd_eq_ok (h : t.kind.endsExpression = true) : checkEnd t = .ok () := by
  unfold checkEnd
  refine if_neg fun hoperator => ?_
  cases hkind : t.kind <;>
    simp_all [Kind.endsExpression, Kind.isOperand, Kind.isJoiner, Kind.isQuantifier]

end ReversePolish

/-! ## Trees -/

namespace Tree

open ReversePolish

/-- The precedence of the loosest operator that a level allows outside of groups. -/
def Level.precedence : Level → Nat
  | expression => 1
  | term => 2
  | factor => 3

theorem Level.one_le_precedence (l : Level) : 1 ≤ l.precedence := by
  cases l <;> decide

theorem Level.two_le_precedence {l : Level} (h : l ≠ .expression) : 2 ≤ l.precedence := by
  cases l with
  | expression => exact absurd rfl h
  | term => exact Nat.le_refl 2
  | factor => exact Nat.le_succ 2

/-- **Reading a valid tree** over operators that bind less tightly gives its postorder. -/
theorem reorders {tree : Tree} (h : tree.Valid) {waiting : List Token}
    (hw : Yields tree.level.precedence waiting) :
    Reorders tree.level.precedence waiting tree.tokens tree.postorder := by
  induction tree generalizing waiting with
  | operand t => exact reorders_operand h
  | group opening body closing ih =>
    obtain ⟨hopening, hclosing, hbody⟩ := h
    exact (ih hbody (yields_opening hopening)).group hopening hclosing
  | quantified body operator ih =>
    obtain ⟨hquantifier, hlevel, hbody⟩ := h
    have hk : operator.kind.precedence? = some 3 := by
      rcases Kind.isQuantifier_iff.mp hquantifier with hkind | hkind | hkind <;> rw [hkind] <;> rfl
    rw [hlevel] at ih
    exact (ih hbody hw).quantified hk hw
  | concat left operator right ihl ihr =>
    obtain ⟨hkind, hleft, hright, hl, hr⟩ := h
    have hk : operator.kind.precedence? = some 2 := by rw [hkind]; rfl
    have hle : 2 ≤ left.level.precedence := Level.two_le_precedence hleft
    rw [hright] at ihr
    exact ((ihl hl (hw.mono hle)).mono hle).joined hk hw
      ((ihr hr (yields_operator hk (Nat.lt_succ_self 2))).mono (Nat.le_succ 2))
  | union left operator right ihl ihr =>
    obtain ⟨hkind, hright, hl, hr⟩ := h
    have hk : operator.kind.precedence? = some 1 := by rw [hkind]; rfl
    have hle : 1 ≤ left.level.precedence := left.level.one_le_precedence
    have hlt : 1 < right.level.precedence := Level.two_le_precedence hright
    exact ((ihl hl (hw.mono hle)).mono hle).joined hk hw
      ((ihr hr (yields_operator hk hlt)).mono (Nat.le_of_lt hlt))

/-- **The tokens of a valid tree are reordered into its postorder.** -/
theorem ofTokens_tokens {tree : Tree} (h : tree.Valid) :
    ofTokens tree.tokens = .ok tree.postorder := by
  obtain ⟨emitted, pending, hread, houtput, hbinds⟩ := reorders h yields_nil
  have harrange : arrange [] tree.tokens = .ok tree.postorder := by
    have hall := hread []
    rw [List.append_nil, List.append_nil, arrange,
      drain_eq_self fun t ht => (hbinds t ht).kind_ne_opening] at hall
    rw [hall, ← houtput]
    rfl
  obtain ⟨rest, hfirst⟩ := tree.tokens_eq_cons
  obtain ⟨before, hlast⟩ := tree.tokens_eq_snoc
  have hstart : checkStart tree.first = .ok () := checkStart_eq_ok (beginsExpression_first h)
  have hend : checkEnd tree.last = .ok () := checkEnd_eq_ok (endsExpression_last h)
  have hget : (tree.first :: rest).getLast (List.cons_ne_nil _ _) = tree.last := by
    simp only [← hfirst, hlast, List.getLast_concat]
  rw [hfirst] at harrange ⊢
  rw [ofTokens, hstart, harrange, hget, hend]
  rfl

end Tree

end RegexStepper

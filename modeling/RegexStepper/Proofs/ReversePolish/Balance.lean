import RegexStepper.Regex
import RegexStepper.ReversePolish

/-!
# What reordering keeps

`Run waiting ts out` is the run of the reordering written as a derivation, one rule for each kind of
token (`run_of_arrange`, `Run.arrange_eq`). `Arranged waiting ts out` is such a run without its
precedences: it tells what each token takes off the operators that wait (`arranged_of_arrange`).

A token makes a stack of expressions grow by one, shrink by one or stay as high as it was
(`Kind.growth`); parentheses and quantifiers weigh nothing. Headlines:

* `Arranged.balance_eq`: reordering keeps the sum of the growths, `balance`, also of a list that is
  no expression;
* `Arranged.closes`: only a list whose parentheses match is reordered;
* `length_of_evaluate?`: evaluating makes the stack grow by the balance.
-/

namespace RegexStepper

/-- By how much a token makes a stack of expressions grow. -/
def Kind.growth : Kind → Int
  | literal | epsilon => 1
  | concat | union => -1
  | star | plus | optional | opening | closing | other _ => 0

namespace ReversePolish

/-- By how much a token list makes a stack of expressions grow. -/
def balance : List Token → Int
  | [] => 0
  | t :: rest => t.kind.growth + balance rest

/-- With `depth` groups open, the token list closes them and all that it opens. -/
def Closes : Nat → List Token → Prop
  | depth, [] => depth = 0
  | depth, t :: rest =>
    match t.kind with
    | .opening => Closes (depth + 1) rest
    | .closing => ∃ outer, depth = outer + 1 ∧ Closes outer rest
    | _ => Closes depth rest

variable {waiting released left ts out : List Token} {t : Token} {k : Kind} {depth : Nat}

theorem balance_append (ts us : List Token) : balance (ts ++ us) = balance ts + balance us := by
  induction ts with
  | nil => exact (Int.zero_add _).symm
  | cons t ts ih => rw [List.cons_append, balance, balance, ih, Int.add_assoc]

theorem closes_opening (h : t.kind = .opening) :
    Closes depth (t :: ts) ↔ Closes (depth + 1) ts := by
  simp only [Closes, h]

theorem closes_closing (h : t.kind = .closing) :
    Closes depth (t :: ts) ↔ ∃ outer, depth = outer + 1 ∧ Closes outer ts := by
  simp only [Closes, h]

theorem closes_other (hopening : t.kind ≠ .opening) (hclosing : t.kind ≠ .closing) :
    Closes depth (t :: ts) ↔ Closes depth ts := by
  rw [Closes]
  split
  · rename_i h
    exact absurd h hopening
  · rename_i h
    exact absurd h hclosing
  · rfl

/-- Groups that are closed are opened. -/
theorem Closes.count_eq (h : Closes depth ts) :
    depth + (ts.map (·.kind)).count .opening = (ts.map (·.kind)).count .closing := by
  induction ts generalizing depth with
  | nil => exact h
  | cons t rest ih =>
    by_cases hopening : t.kind = .opening
    · have := ih ((closes_opening hopening).mp h)
      simp [hopening]
      omega
    · by_cases hclosing : t.kind = .closing
      · obtain ⟨outer, rfl, houter⟩ := (closes_closing hclosing).mp h
        have := ih houter
        simp [hclosing]
        omega
      · have := ih ((closes_other hopening hclosing).mp h)
        simp [hopening, hclosing]
        omega

/-! ## The run as a derivation -/

/-- Reading `ts` while `waiting` waits gives `out`: the reordering itself, one rule for each kind of
token. -/
inductive Run : List Token → List Token → List Token → Prop where
  | drain {waiting out : List Token} : drain waiting = .ok out → Run waiting [] out
  | operand {waiting rest out : List Token} {t : Token} : t.kind.isOperand = true →
    Run waiting rest out → Run waiting (t :: rest) (t :: out)
  | opening {waiting rest out : List Token} {t : Token} : t.kind = .opening →
    Run (t :: waiting) rest out → Run waiting (t :: rest) out
  | closing {waiting released left rest out : List Token} {t : Token} : t.kind = .closing →
    closeGroup t.position waiting = .ok (released, left) → Run left rest out →
    Run waiting (t :: rest) (released ++ out)
  | operator {waiting released left rest out : List Token} {t : Token} :
    t.kind.isOperand = false → t.kind ≠ .opening → t.kind ≠ .closing →
    release t.kind waiting = .ok (released, left) → Run (t :: left) rest out →
    Run waiting (t :: rest) (released ++ out)

theorem run_of_arrange (h : arrange waiting ts = .ok out) : Run waiting ts out := by
  induction ts generalizing waiting out with
  | nil => exact .drain h
  | cons t rest ih =>
    unfold arrange at h
    split at h
    · rename_i hkind
      obtain ⟨out', hrest, rfl⟩ := map_eq_ok.mp h
      exact .operand (by rw [hkind]; rfl) (ih hrest)
    · rename_i hkind
      obtain ⟨out', hrest, rfl⟩ := map_eq_ok.mp h
      exact .operand (by rw [hkind]; rfl) (ih hrest)
    · rename_i hkind
      exact .opening hkind (ih h)
    · rename_i hkind
      obtain ⟨⟨released, left⟩, hclose, h⟩ := bind_eq_ok.mp h
      obtain ⟨out', hrest, rfl⟩ := map_eq_ok.mp h
      exact .closing hkind hclose (ih hrest)
    · rename_i hliteral hepsilon hopening hclosing
      obtain ⟨⟨released, left⟩, hrelease, h⟩ := bind_eq_ok.mp h
      obtain ⟨out', hrest, rfl⟩ := map_eq_ok.mp h
      exact .operator (Kind.isOperand_eq_false hliteral hepsilon) hopening hclosing hrelease
        (ih hrest)

theorem Run.arrange_eq (h : Run waiting ts out) : arrange waiting ts = .ok out := by
  induction h with
  | drain hdrain => exact hdrain
  | operand hkind _ ih =>
    rcases Kind.isOperand_iff.mp hkind with hkind | hkind <;>
      simp only [arrange, hkind] <;> exact map_eq_ok.mpr ⟨_, ih, rfl⟩
  | opening hkind _ ih =>
    simp only [arrange, hkind]
    exact ih
  | closing hkind hclose _ ih =>
    simp only [arrange, hkind]
    exact bind_eq_ok.mpr ⟨_, hclose, map_eq_ok.mpr ⟨_, ih, rfl⟩⟩
  | @operator waiting released left rest out t hoperand hopening hclosing hrelease _ ih =>
    have hrun : (release t.kind waiting >>= fun taken =>
        (taken.1 ++ ·) <$> arrange (t :: taken.2) rest) = .ok (released ++ out) :=
      bind_eq_ok.mpr ⟨_, hrelease, map_eq_ok.mpr ⟨_, ih, rfl⟩⟩
    cases hkind : t.kind <;> rw [hkind] at hoperand hrun
    case literal | epsilon => cases hoperand
    case opening => exact absurd hkind hopening
    case closing => exact absurd hkind hclosing
    all_goals simpa only [arrange, hkind] using hrun

/-- The run without its precedences: what each token takes off the operators that wait, and not
why. -/
inductive Arranged : List Token → List Token → List Token → Prop where
  | drain {waiting : List Token} : (∀ t ∈ waiting, t.kind ≠ .opening) →
    Arranged waiting [] waiting
  | operand {waiting rest out : List Token} {t : Token} : t.kind.isOperand = true →
    Arranged waiting rest out → Arranged waiting (t :: rest) (t :: out)
  | opening {waiting rest out : List Token} {t : Token} : t.kind = .opening →
    Arranged (t :: waiting) rest out → Arranged waiting (t :: rest) out
  | closing {released waiting rest out : List Token} {opening t : Token} : t.kind = .closing →
    opening.kind = .opening → (∀ u ∈ released, u.kind ≠ .opening) → Arranged waiting rest out →
    Arranged (released ++ opening :: waiting) (t :: rest) (released ++ out)
  | operator {released waiting rest out : List Token} {t : Token} : t.kind.isOperand = false →
    t.kind ≠ .opening → t.kind ≠ .closing → (∀ u ∈ released, u.kind.precedence?.isSome = true) →
    Arranged (t :: waiting) rest out → Arranged (released ++ waiting) (t :: rest) (released ++ out)

/-- What is released is the top of the operators that wait, and holds operators alone. -/
theorem release_eq_ok (h : release k waiting = .ok (released, left)) :
    waiting = released ++ left ∧ ∀ t ∈ released, t.kind.precedence?.isSome = true := by
  induction waiting generalizing released left with
  | nil =>
    cases h
    exact ⟨rfl, fun t ht => absurd ht List.not_mem_nil⟩
  | cons top waiting ih =>
    unfold release at h
    by_cases hopening : top.kind = .opening
    · rw [if_pos hopening] at h
      cases h
      exact ⟨rfl, fun t ht => absurd ht List.not_mem_nil⟩
    · rw [if_neg hopening] at h
      obtain ⟨held, hheld, h⟩ := bind_eq_ok.mp h
      obtain ⟨asked, _, h⟩ := bind_eq_ok.mp h
      by_cases hle : asked ≤ held
      · rw [if_pos hle] at h
        obtain ⟨⟨released', left'⟩, hrest, h⟩ := bind_eq_ok.mp h
        cases h
        obtain ⟨hwaiting, hreleased⟩ := ih hrest
        refine ⟨by rw [hwaiting]; rfl, fun t ht => ?_⟩
        rcases List.mem_cons.mp ht with rfl | ht
        · unfold precedence at hheld
          split at hheld
          · rename_i hsome
            rw [hsome]
            rfl
          · cases hheld
        · exact hreleased t ht
      · rw [if_neg hle] at h
        cases h
        exact ⟨rfl, fun t ht => absurd ht List.not_mem_nil⟩

/-- The end of a group takes off all down to the parenthesis that opened it. -/
theorem closeGroup_eq_ok {position : Option Int}
    (h : closeGroup position waiting = .ok (released, left)) :
    ∃ opening, waiting = released ++ opening :: left ∧ opening.kind = .opening ∧
      ∀ t ∈ released, t.kind ≠ .opening := by
  induction waiting generalizing released left with
  | nil => cases h
  | cons top waiting ih =>
    unfold closeGroup at h
    by_cases hopening : top.kind = .opening
    · rw [if_pos hopening] at h
      cases h
      exact ⟨top, rfl, hopening, fun t ht => absurd ht List.not_mem_nil⟩
    · rw [if_neg hopening] at h
      obtain ⟨⟨released', left'⟩, hrest, h⟩ := bind_eq_ok.mp h
      cases h
      obtain ⟨opening, hwaiting, hkind, hreleased⟩ := ih hrest
      refine ⟨opening, by rw [hwaiting]; rfl, hkind, fun t ht => ?_⟩
      rcases List.mem_cons.mp ht with rfl | ht
      · exact hopening
      · exact hreleased t ht

/-- The end of the list takes off all, and finds no group open. -/
theorem drain_eq_ok (h : drain waiting = .ok out) :
    out = waiting ∧ ∀ t ∈ waiting, t.kind ≠ .opening := by
  induction waiting generalizing out with
  | nil =>
    cases h
    exact ⟨rfl, fun t ht => absurd ht List.not_mem_nil⟩
  | cons top waiting ih =>
    unfold drain at h
    by_cases hopening : top.kind = .opening
    · rw [if_pos hopening] at h
      cases h
    · rw [if_neg hopening] at h
      obtain ⟨out', hrest, rfl⟩ := map_eq_ok.mp h
      obtain ⟨rfl, hwaiting⟩ := ih hrest
      refine ⟨rfl, fun t ht => ?_⟩
      rcases List.mem_cons.mp ht with rfl | ht
      · exact hopening
      · exact hwaiting t ht

theorem Run.arranged (h : Run waiting ts out) : Arranged waiting ts out := by
  induction h with
  | drain hdrain =>
    obtain ⟨rfl, hwaiting⟩ := drain_eq_ok hdrain
    exact .drain hwaiting
  | operand hkind _ ih => exact .operand hkind ih
  | opening hkind _ ih => exact .opening hkind ih
  | closing hkind hclose _ ih =>
    obtain ⟨opening, rfl, hopening, hreleased⟩ := closeGroup_eq_ok hclose
    exact .closing hkind hopening hreleased ih
  | operator hoperand hopening hclosing hrelease _ ih =>
    obtain ⟨rfl, hreleased⟩ := release_eq_ok hrelease
    exact .operator hoperand hopening hclosing hreleased ih

/-- **A reordering that succeeds has a derivation.** -/
theorem arranged_of_arrange (h : arrange waiting ts = .ok out) : Arranged waiting ts out :=
  (run_of_arrange h).arranged

/-- A list that is reordered as a whole is reordered where nothing waits. -/
theorem arrange_of_ofTokens (h : ofTokens ts = .ok out) : arrange [] ts = .ok out := by
  cases ts with
  | nil => exact h
  | cons first rest =>
    obtain ⟨_, _, h⟩ := bind_eq_ok.mp h
    obtain ⟨output, harrange, h⟩ := bind_eq_ok.mp h
    obtain ⟨_, _, h⟩ := bind_eq_ok.mp h
    cases h
    exact harrange

theorem arranged_of_ofTokens (h : ofTokens ts = .ok out) : Arranged [] ts out :=
  arranged_of_arrange (arrange_of_ofTokens h)

/-! ## What a derivation keeps -/

/-- **Reordering keeps the balance.** -/
theorem Arranged.balance_eq (h : Arranged waiting ts out) :
    balance out = balance waiting + balance ts := by
  induction h with
  | drain => exact (Int.add_zero _).symm
  | operand _ _ ih =>
    rw [balance, balance, ih]
    omega
  | opening hkind _ ih =>
    rw [ih, balance, balance, hkind, Kind.growth]
    omega
  | closing hkind hopening _ _ ih =>
    rw [balance_append, balance_append, ih, balance, balance, hkind, hopening, Kind.growth,
      Kind.growth]
    omega
  | operator _ _ _ _ _ ih =>
    rw [balance_append, balance_append, ih, balance, balance]
    omega

/-- Reordering writes no token that it has not read. -/
theorem Arranged.mem_of_mem (h : Arranged waiting ts out) (ht : t ∈ out) :
    t ∈ waiting ∨ t ∈ ts := by
  induction h with
  | drain => exact Or.inl ht
  | operand _ _ ih =>
    rcases List.mem_cons.mp ht with rfl | ht
    · exact Or.inr List.mem_cons_self
    · exact (ih ht).imp_right (List.mem_cons_of_mem _)
  | opening _ _ ih =>
    rcases ih ht with ht | ht
    · exact (List.mem_cons.mp ht).elim (fun h => Or.inr (h ▸ List.mem_cons_self)) Or.inl
    · exact Or.inr (List.mem_cons_of_mem _ ht)
  | closing _ _ _ _ ih =>
    rcases List.mem_append.mp ht with ht | ht
    · exact Or.inl (List.mem_append_left _ ht)
    · exact (ih ht).imp (fun h => List.mem_append_right _ (List.mem_cons_of_mem _ h))
        (List.mem_cons_of_mem _)
  | operator _ _ _ _ _ ih =>
    rcases List.mem_append.mp ht with ht | ht
    · exact Or.inl (List.mem_append_left _ ht)
    · rcases ih ht with ht | ht
      · exact (List.mem_cons.mp ht).elim (fun h => Or.inr (h ▸ List.mem_cons_self))
          fun h => Or.inl (List.mem_append_right _ h)
      · exact Or.inr (List.mem_cons_of_mem _ ht)

/-! ## Open groups -/

/-- The places of the groups that are open while these operators wait, innermost first. -/
def openings (waiting : List Token) : List (Option Int) :=
  (waiting.filter (·.kind == .opening)).map (·.position)

theorem openings_opening (h : t.kind = .opening) :
    openings (t :: waiting) = t.position :: openings waiting := by
  simp [openings, h]

theorem openings_other (h : t.kind ≠ .opening) : openings (t :: waiting) = openings waiting := by
  simp [openings, h]

theorem openings_append_of_ne (h : ∀ u ∈ released, u.kind ≠ .opening) :
    openings (released ++ waiting) = openings waiting := by
  induction released with
  | nil => rfl
  | cons u released ih =>
    rw [List.cons_append, openings_other (h u List.mem_cons_self)]
    exact ih fun t ht => h t (List.mem_cons_of_mem u ht)

/-- How many groups are open while these operators wait. -/
def openGroups (waiting : List Token) : Nat :=
  waiting.countP (·.kind == .opening)

theorem openGroups_eq_length (waiting : List Token) :
    openGroups waiting = (openings waiting).length := by
  simp [openGroups, openings, List.countP_eq_length_filter]

theorem openGroups_opening (h : t.kind = .opening) :
    openGroups (t :: waiting) = openGroups waiting + 1 := by
  rw [openGroups_eq_length, openings_opening h, List.length_cons, openGroups_eq_length]

theorem openGroups_other (h : t.kind ≠ .opening) :
    openGroups (t :: waiting) = openGroups waiting := by
  rw [openGroups_eq_length, openings_other h, openGroups_eq_length]

theorem openGroups_append_of_ne (h : ∀ u ∈ released, u.kind ≠ .opening) :
    openGroups (released ++ waiting) = openGroups waiting := by
  rw [openGroups_eq_length, openings_append_of_ne h, openGroups_eq_length]

/-- **Reordering checks the parentheses.** -/
theorem Arranged.closes (h : Arranged waiting ts out) : Closes (openGroups waiting) ts := by
  induction h with
  | @drain waiting hwaiting =>
    have hnone := @openGroups_append_of_ne [] _ hwaiting
    rwa [List.append_nil] at hnone
  | operand hkind _ ih =>
    rcases Kind.isOperand_iff.mp hkind with hkind | hkind <;>
      exact (closes_other (by simp [hkind]) (by simp [hkind])).mpr ih
  | opening hkind _ ih =>
    rw [openGroups_opening hkind] at ih
    exact (closes_opening hkind).mpr ih
  | closing hkind hopening hreleased _ ih =>
    rw [openGroups_append_of_ne hreleased, openGroups_opening hopening]
    exact (closes_closing hkind).mpr ⟨_, rfl, ih⟩
  | operator _ hopening hclosing hreleased _ ih =>
    rw [openGroups_other hopening] at ih
    rw [openGroups_append_of_ne fun u hu => Kind.ne_opening_of_precedence? (hreleased u hu)]
    exact (closes_other hopening hclosing).mpr ih

/-! ## Evaluation -/

/-- One token makes the stack grow by its growth. -/
theorem length_of_push? {stack stack' : List Regex} (h : push? t stack = some stack') :
    (stack'.length : Int) = stack.length + t.kind.growth := by
  unfold push? at h
  split at h
  case h_8 => cases h
  all_goals
    rename_i hkind
    rw [← Option.some.inj h, hkind]
    simp only [List.length_cons, Kind.growth]
    omega

/-- **Evaluation makes the stack grow by the balance.** -/
theorem length_of_evaluate? {stack stack' : List Regex} (h : evaluate? stack ts = some stack') :
    (stack'.length : Int) = stack.length + balance ts := by
  induction ts generalizing stack with
  | nil =>
    cases h
    exact (Int.add_zero _).symm
  | cons t rest ih =>
    obtain ⟨next, hpush, hrest⟩ := Option.bind_eq_some_iff.mp h
    rw [ih hrest, length_of_push? hpush, balance, Int.add_assoc]

end ReversePolish

end RegexStepper

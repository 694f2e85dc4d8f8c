import RegexStepper.Proofs.ReversePolish.Balance

/-!
# The reordering, place by place

Two tokens of a list may be equal, so what becomes of each is told of its place: `read` says which
token stands at a place. `Writes read waiting i written waiting'` is what reading the token at `i`
does, one rule for each kind, and `WritesAll` is a run of it along a list of places. A list that is
reordered has such a run (`Arranged.writesAll`).

What one token keeps, a run keeps:

* `WritesAll.perm`: what is written or waits is what has been read, parentheses left out;
* `WritesAll.pairwise`: what stands before an operand in the end stood before it at first;
* `WritesAll.group`: a group is written in one piece.

Headline: **`exists_ordered`**, that a list is reordered along an order of its places that has all
three properties (`Ordered`).
-/

namespace RegexStepper

/-- The signs that group and are never written. -/
def Kind.isParenthesis : Kind → Bool
  | opening | closing => true
  | _ => false

namespace Kind

variable {k : Kind}

theorem isParenthesis_iff : k.isParenthesis = true ↔ k = opening ∨ k = closing := by
  cases k <;> simp [isParenthesis]

theorem isParenthesis_of_opening (h : k = opening) : k.isParenthesis = true :=
  isParenthesis_iff.mpr (Or.inl h)

theorem isParenthesis_of_closing (h : k = closing) : k.isParenthesis = true :=
  isParenthesis_iff.mpr (Or.inr h)

theorem isParenthesis_of_isOperand (h : k.isOperand = true) : k.isParenthesis = false := by
  rcases isOperand_iff.mp h with rfl | rfl <;> rfl

theorem isParenthesis_eq_false (hopening : k ≠ opening) (hclosing : k ≠ closing) :
    k.isParenthesis = false :=
  Bool.eq_false_iff.mpr fun h => (isParenthesis_iff.mp h).elim hopening hclosing

end Kind

namespace ReversePolish

open scoped List

variable {α : Type} {read : α → Token} {waiting waiting' places written : List α} {i j : α}

/-! ## One token -/

/-- Reading the token at the place `i` while those at `waiting` wait writes those at `written` and
leaves those at `waiting'`. -/
inductive Writes (read : α → Token) : List α → α → List α → List α → Prop where
  | operand {waiting : List α} {i : α} : (read i).kind.isOperand = true →
    Writes read waiting i [i] waiting
  | opening {waiting : List α} {i : α} : (read i).kind = .opening →
    Writes read waiting i [] (i :: waiting)
  | closing {released waiting : List α} {opening i : α} : (read i).kind = .closing →
    (read opening).kind = .opening → (∀ j ∈ released, (read j).kind ≠ .opening) →
    Writes read (released ++ opening :: waiting) i released waiting
  | operator {released waiting : List α} {i : α} : (read i).kind.isOperand = false →
    (read i).kind ≠ .opening → (read i).kind ≠ .closing →
    (∀ j ∈ released, (read j).kind ≠ .opening) →
    Writes read (released ++ waiting) i released (i :: waiting)

/-- What can wait is neither an operand nor the end of a group. -/
def Held (read : α → Token) (waiting : List α) : Prop :=
  ∀ i ∈ waiting, (read i).kind.isOperand = false ∧ (read i).kind ≠ .closing

/-- The places of the tokens that are to be written. -/
def plain (read : α → Token) (places : List α) : List α :=
  places.filter fun i => !(read i).kind.isParenthesis

theorem mem_plain : i ∈ plain read places ↔ i ∈ places ∧ (read i).kind.isParenthesis = false := by
  simp [plain]

theorem plain_append (places more : List α) :
    plain read (places ++ more) = plain read places ++ plain read more :=
  List.filter_append places more

theorem plain_cons_of_parenthesis (h : (read i).kind.isParenthesis = true) :
    plain read (i :: places) = plain read places :=
  List.filter_cons_of_neg (by rw [h]; decide)

theorem plain_cons (h : (read i).kind.isParenthesis = false) :
    plain read (i :: places) = i :: plain read places :=
  List.filter_cons_of_pos (by rw [h]; rfl)

theorem held_nil : Held read [] :=
  fun _ hi => absurd hi List.not_mem_nil

theorem Held.plain_eq (h : Held read waiting)
    (hopening : ∀ i ∈ waiting, (read i).kind ≠ .opening) : plain read waiting = waiting := by
  refine List.filter_eq_self.mpr fun i hi => ?_
  rw [Kind.isParenthesis_eq_false (hopening i hi) (h i hi).2]
  rfl

/-- Among what waits there is no operand. -/
theorem Held.pairwise {R : α → α → Prop} (h : Held read waiting) :
    waiting.Pairwise fun i j => (read j).kind.isOperand = true → R i j := by
  refine List.pairwise_of_forall_mem_list fun i _ j hj hoperand => ?_
  exact absurd hoperand (by simp [(h j hj).1])

namespace Writes

/-- What is written or waits was waiting or has just been read. -/
theorem mem_of_mem (h : Writes read waiting i written waiting') (hj : j ∈ written ++ waiting') :
    j ∈ waiting ∨ j = i := by
  cases h with
  | operand | opening => exact (List.mem_cons.mp hj).symm
  | closing =>
    rcases List.mem_append.mp hj with hj | hj
    · exact Or.inl (List.mem_append_left _ hj)
    · exact Or.inl (List.mem_append_right _ (List.mem_cons_of_mem _ hj))
  | operator =>
    rcases List.mem_append.mp hj with hj | hj
    · exact Or.inl (List.mem_append_left _ hj)
    · exact (List.mem_cons.mp hj).symm.imp_left (List.mem_append_right _)

/-- What waits afterwards can wait. -/
theorem held (h : Writes read waiting i written waiting') (hheld : Held read waiting) :
    Held read waiting' := by
  cases h with
  | operand => exact hheld
  | opening hkind => exact List.forall_mem_cons.mpr ⟨by simp [hkind, Kind.isOperand], hheld⟩
  | closing => exact (List.forall_mem_cons.mp (List.forall_mem_append.mp hheld).2).2
  | operator hoperand _ hclosing =>
    exact List.forall_mem_cons.mpr ⟨⟨hoperand, hclosing⟩, (List.forall_mem_append.mp hheld).2⟩

/-- One token loses nothing that waits, but for the parenthesis of a group that it ends. -/
theorem perm (h : Writes read waiting i written waiting') (hheld : Held read waiting) :
    (written ++ plain read waiting').Perm (plain read waiting ++ plain read [i]) := by
  cases h with
  | operand hkind =>
    rw [plain_cons (Kind.isParenthesis_of_isOperand hkind)]
    exact List.perm_append_comm
  | opening hkind =>
    rw [plain_cons_of_parenthesis (Kind.isParenthesis_of_opening hkind),
      plain_cons_of_parenthesis (Kind.isParenthesis_of_opening hkind)]
    exact .of_eq (List.append_nil _).symm
  | closing hkind hopening hreleased =>
    rw [plain_append, Held.plain_eq (List.forall_mem_append.mp hheld).1 hreleased,
      plain_cons_of_parenthesis (Kind.isParenthesis_of_opening hopening),
      plain_cons_of_parenthesis (Kind.isParenthesis_of_closing hkind)]
    exact .of_eq (List.append_nil _).symm
  | operator _ hopening hclosing hreleased =>
    have hplain := Kind.isParenthesis_eq_false hopening hclosing
    rw [plain_append, Held.plain_eq (List.forall_mem_append.mp hheld).1 hreleased,
      plain_cons hplain, plain_cons hplain, List.append_assoc]
    exact (List.perm_append_singleton i _).symm.append_left written

/-- What one token writes is one operand or none. -/
theorem pairwise {R : α → α → Prop} (h : Writes read waiting i written waiting')
    (hheld : Held read waiting) :
    written.Pairwise fun i j => (read j).kind.isOperand = true → R i j := by
  cases h with
  | operand => exact List.pairwise_singleton _ i
  | opening => exact List.Pairwise.nil
  | closing => exact Held.pairwise (List.forall_mem_append.mp hheld).1
  | operator => exact Held.pairwise (List.forall_mem_append.mp hheld).1

end Writes

/-! ## Many tokens -/

/-- Reading the tokens at `places`, one after the other. -/
inductive WritesAll (read : α → Token) : List α → List α → List α → List α → Prop where
  | nil {waiting : List α} : WritesAll read waiting [] [] waiting
  | cons {waiting between waiting' rest written written' : List α} {i : α} :
    Writes read waiting i written between → WritesAll read between rest written' waiting' →
    WritesAll read waiting (i :: rest) (written ++ written') waiting'

namespace WritesAll

theorem held (h : WritesAll read waiting places written waiting') (hheld : Held read waiting) :
    Held read waiting' := by
  induction h with
  | nil => exact hheld
  | cons hfirst _ ih => exact ih (hfirst.held hheld)

/-- **Nothing is lost and nothing comes twice.** -/
theorem perm (h : WritesAll read waiting places written waiting') (hheld : Held read waiting) :
    (written ++ plain read waiting').Perm (plain read waiting ++ plain read places) := by
  induction h with
  | nil => exact .of_eq (List.append_nil _).symm
  | @cons waiting between waiting' rest written written' i hfirst _ ih =>
    calc written ++ written' ++ plain read waiting'
      _ = written ++ (written' ++ plain read waiting') := List.append_assoc _ _ _
      _ ~ written ++ (plain read between ++ plain read rest) :=
        (ih (hfirst.held hheld)).append_left written
      _ = written ++ plain read between ++ plain read rest := (List.append_assoc _ _ _).symm
      _ ~ plain read waiting ++ plain read [i] ++ plain read rest :=
        (hfirst.perm hheld).append_right _
      _ = plain read waiting ++ plain read (i :: rest) := by
        rw [List.append_assoc, ← plain_append, List.singleton_append]

/-- No operand waits: one that is written or waits has been read. -/
theorem mem_of_isOperand (h : WritesAll read waiting places written waiting')
    (hheld : Held read waiting) (hi : i ∈ written ++ waiting')
    (hoperand : (read i).kind.isOperand = true) : i ∈ places := by
  have hnot : ∀ {waiting}, Held read waiting → i ∉ waiting := fun hheld hi =>
    absurd hoperand (by simp [(hheld i hi).1])
  rcases List.mem_append.mp hi with hi | hi
  · have hplain := (h.perm hheld).mem_iff.mp (List.mem_append_left _ hi)
    rw [← plain_append, mem_plain, List.mem_append] at hplain
    exact hplain.1.resolve_left (hnot hheld)
  · exact absurd hi (hnot (h.held hheld))

/-- **What stands before an operand when all is written stood before it at first**, whatever
relation `R` says how the places stood. -/
theorem pairwise {R : α → α → Prop} (h : WritesAll read waiting places written waiting')
    (hheld : Held read waiting) (hacross : ∀ i ∈ waiting, ∀ j ∈ places, R i j)
    (hplaces : places.Pairwise R) :
    (written ++ waiting').Pairwise fun i j => (read j).kind.isOperand = true → R i j := by
  induction h with
  | nil => exact hheld.pairwise
  | @cons waiting between waiting' rest written written' i hfirst hrest ih =>
    obtain ⟨hi, hplaces⟩ := List.pairwise_cons.mp hplaces
    have hbefore : ∀ {j}, j ∈ written ++ between → ∀ k ∈ rest, R j k := by
      intro j hj k hk
      rcases hfirst.mem_of_mem hj with hj | rfl
      · exact hacross j hj k (List.mem_cons_of_mem i hk)
      · exact hi k hk
    have hheld' := hfirst.held hheld
    rw [List.append_assoc, List.pairwise_append]
    refine ⟨hfirst.pairwise hheld, ih hheld' (fun j hj => ?_) hplaces, fun j hj k hk hoperand => ?_⟩
    · exact hbefore (List.mem_append_right _ hj)
    · exact hbefore (List.mem_append_left _ hj) k (hrest.mem_of_isOperand hheld' hk hoperand)

/-- Reading two lists is reading the first and then the second. -/
theorem split {before after : List α}
    (h : WritesAll read waiting (before ++ after) written waiting') :
    ∃ first between second, WritesAll read waiting before first between ∧
      WritesAll read between after second waiting' ∧ written = first ++ second := by
  induction before generalizing waiting written with
  | nil => exact ⟨[], waiting, written, .nil, h, rfl⟩
  | cons i before ih =>
    cases h with
    | cons hfirst hrest =>
      obtain ⟨first, between, second, hbefore, hafter, rfl⟩ := ih hrest
      exact ⟨_, between, second, .cons hfirst hbefore, hafter, (List.append_assoc _ _ _).symm⟩

end WritesAll

/-! ## Groups -/

variable {above below inner : List α} {opening closing : α}

/-- What is taken off the places that wait above an open group leaves the group open. -/
theorem above_of_append_eq {released left : List α}
    (h : above ++ opening :: below = released ++ left) (hopening : (read opening).kind = .opening)
    (hreleased : ∀ j ∈ released, (read j).kind ≠ .opening) :
    ∃ rest, above = released ++ rest ∧ left = rest ++ opening :: below := by
  rcases List.append_eq_append_iff.mp h with ⟨more, hmore, hleft⟩ | ⟨rest, hrest, hleft⟩
  · cases more with
    | nil => exact ⟨[], by rw [hmore, List.append_nil, List.append_nil], hleft.symm⟩
    | cons j more =>
      obtain ⟨rfl, _⟩ := List.cons.inj hleft
      exact absurd hopening (hreleased opening (hmore ▸ List.mem_append_right _ List.mem_cons_self))
  · exact ⟨rest, hrest, hleft⟩

theorem openGroups_released {released rest : List α}
    (h : ∀ j ∈ released, (read j).kind ≠ .opening) :
    openGroups ((released ++ rest).map read) = openGroups (rest.map read) := by
  rw [List.map_append]
  refine openGroups_append_of_ne fun u hu => ?_
  obtain ⟨j, hj, rfl⟩ := List.mem_map.mp hu
  exact h j hj

/-- A token of a group leaves the group open, and what is to be read closes what is open in it. -/
theorem Writes.keeps_open {rest : List α}
    (h : Writes read (above ++ opening :: below) i written waiting')
    (hopening : (read opening).kind = .opening)
    (hcloses : Closes (openGroups (above.map read)) ((i :: rest).map read)) :
    ∃ above', waiting' = above' ++ opening :: below ∧
      Closes (openGroups (above'.map read)) (rest.map read) := by
  generalize hall : above ++ opening :: below = all at h
  rw [List.map_cons] at hcloses
  cases h with
  | operand hkind =>
    rw [closes_other (by rintro h; simp [h, Kind.isOperand] at hkind)
      (by rintro h; simp [h, Kind.isOperand] at hkind)] at hcloses
    exact ⟨above, hall.symm, hcloses⟩
  | opening hkind =>
    rw [closes_opening hkind, ← openGroups_opening hkind, ← List.map_cons] at hcloses
    exact ⟨i :: above, by rw [← hall]; rfl, hcloses⟩
  | closing hkind hopening' hreleased =>
    obtain ⟨outer, houter, hcloses⟩ := (closes_closing hkind).mp hcloses
    obtain ⟨rest', rfl, hleft⟩ := above_of_append_eq hall hopening hreleased
    rw [openGroups_released hreleased] at houter
    cases rest' with
    | nil => cases houter
    | cons j above' =>
      obtain ⟨rfl, rfl⟩ := List.cons.inj hleft
      rw [List.map_cons, openGroups_opening hopening'] at houter
      obtain rfl := Nat.succ.inj houter
      exact ⟨above', rfl, hcloses⟩
  | operator _ hopening' hclosing hreleased =>
    obtain ⟨above', rfl, rfl⟩ := above_of_append_eq hall hopening hreleased
    rw [closes_other hopening' hclosing, openGroups_released hreleased,
      ← openGroups_other hopening', ← List.map_cons] at hcloses
    exact ⟨i :: above', rfl, hcloses⟩

/-- All tokens of a group leave it open, and with it what waited before the group. -/
theorem WritesAll.keeps_open (h : WritesAll read (above ++ opening :: below) inner written waiting')
    (hopening : (read opening).kind = .opening)
    (hcloses : Closes (openGroups (above.map read)) (inner.map read)) :
    ∃ pending, waiting' = pending ++ opening :: below ∧
      ∀ j ∈ pending, (read j).kind ≠ .opening := by
  -- Each step may change what waits above the group, so the induction is for any such list.
  generalize hall : above ++ opening :: below = all at h
  induction h generalizing above with
  | nil =>
    refine ⟨above, hall.symm, ?_⟩
    simpa [Closes, openGroups] using hcloses
  | cons hfirst _ ih =>
    subst hall
    obtain ⟨above', rfl, hrest⟩ := hfirst.keeps_open hopening hcloses
    exact ih hrest rfl

/-- The parenthesis that starts a group waits. -/
theorem Writes.of_opening (h : Writes read waiting i written waiting')
    (hkind : (read i).kind = .opening) : written = [] ∧ waiting' = i :: waiting := by
  cases h with
  | operand hoperand => simp [hkind, Kind.isOperand] at hoperand
  | opening => exact ⟨rfl, rfl⟩
  | closing hclosing => simp [hkind] at hclosing
  | operator _ hopening => exact absurd hkind hopening

/-- The one that ends it releases what waits above the first. -/
theorem Writes.of_closing (h : Writes read (above ++ opening :: below) i written waiting')
    (hkind : (read i).kind = .closing) (hopening : (read opening).kind = .opening)
    (habove : ∀ j ∈ above, (read j).kind ≠ .opening) : written = above := by
  generalize hall : above ++ opening :: below = all at h
  cases h with
  | operand hoperand => simp [hkind, Kind.isOperand] at hoperand
  | opening hopening => simp [hkind] at hopening
  | operator _ _ hclosing => exact absurd hkind hclosing
  | closing _ hopening' hreleased =>
    obtain ⟨rest, rfl, hleft⟩ := above_of_append_eq hall hopening hreleased
    cases rest with
    | nil => exact (List.append_nil _).symm
    | cons j rest =>
      obtain ⟨rfl, _⟩ := List.cons.inj hleft
      exact absurd hopening' (habove _ (List.mem_append_right _ List.mem_cons_self))

/-- **A group is written in one piece**, all of it after what was written before it is read. -/
theorem WritesAll.group {after : List α}
    (h : WritesAll read below (opening :: (inner ++ closing :: after)) written waiting')
    (hheld : Held read below) (hopening : (read opening).kind = .opening)
    (hclosing : (read closing).kind = .closing) (hcloses : Closes 0 (inner.map read)) :
    ∃ inside rest, written = inside ++ rest ∧ inside ~ plain read inner := by
  cases h with
  | cons hfirst hrest =>
    obtain ⟨rfl, rfl⟩ := hfirst.of_opening hopening
    -- The inner tokens leave `pending` above the open group, which its end then releases.
    obtain ⟨first, between, second, hinner, hafter, rfl⟩ := hrest.split
    have hopen : WritesAll read ([] ++ opening :: below) inner first between := hinner
    obtain ⟨pending, rfl, hpending⟩ := hopen.keeps_open hopening hcloses
    cases hafter with
    | @cons _ _ _ _ released later _ hclose _ =>
      obtain rfl := hclose.of_closing hclosing hopening hpending
      refine ⟨first ++ released, later, by rw [List.nil_append, List.append_assoc], ?_⟩
      have hheld' : Held read (opening :: below) :=
        List.forall_mem_cons.mpr ⟨by simp [hopening, Kind.isOperand], hheld⟩
      have hreleased := Held.plain_eq (List.forall_mem_append.mp (hinner.held hheld')).1 hpending
      have hperm := hinner.perm hheld'
      rw [plain_append, hreleased, ← List.append_assoc] at hperm
      exact (List.perm_append_right_iff _).mp (hperm.trans List.perm_append_comm)

/-! ## The run of a token list -/

/-- **A derivation over tokens is a run over their places**, after which operators alone wait. -/
theorem Arranged.writesAll {waitingTokens ts out : List Token} (h : Arranged waitingTokens ts out)
    (hwaiting : waiting.map read = waitingTokens) (hplaces : places.map read = ts) :
    ∃ written waiting', WritesAll read waiting places written waiting' ∧
      (∀ i ∈ waiting', (read i).kind ≠ .opening) ∧ (written ++ waiting').map read = out := by
  induction h generalizing waiting places with
  | drain hopening =>
    subst hwaiting
    obtain rfl := List.map_eq_nil_iff.mp hplaces
    exact ⟨[], waiting, .nil, fun i hi => hopening _ (List.mem_map_of_mem hi), rfl⟩
  | operand hkind _ ih =>
    obtain ⟨i, rest, rfl, rfl, hrest⟩ := List.map_eq_cons_iff.mp hplaces
    obtain ⟨written, waiting', hread, hopening, rfl⟩ := ih hwaiting hrest
    exact ⟨_, waiting', .cons (.operand hkind) hread, hopening, rfl⟩
  | opening hkind _ ih =>
    obtain ⟨i, rest, rfl, rfl, hrest⟩ := List.map_eq_cons_iff.mp hplaces
    have hheld : (i :: waiting).map read = _ := congrArg (read i :: ·) hwaiting
    obtain ⟨written, waiting', hread, hopening, rfl⟩ := ih hheld hrest
    exact ⟨_, waiting', .cons (.opening hkind) hread, hopening, rfl⟩
  | closing hkind hopening hreleased _ ih =>
    obtain ⟨i, rest, rfl, rfl, hrest⟩ := List.map_eq_cons_iff.mp hplaces
    obtain ⟨released, below, rfl, rfl, hbelow⟩ := List.map_eq_append_iff.mp hwaiting
    obtain ⟨opening, left, rfl, rfl, hleft⟩ := List.map_eq_cons_iff.mp hbelow
    obtain ⟨written, waiting', hread, hnone, rfl⟩ := ih hleft hrest
    refine ⟨_, waiting', .cons (.closing hkind hopening fun j hj => ?_) hread, hnone, ?_⟩
    · exact hreleased _ (List.mem_map_of_mem hj)
    · rw [List.append_assoc, List.map_append]
  | operator hkind hopening hclosing hreleased _ ih =>
    obtain ⟨i, rest, rfl, rfl, hrest⟩ := List.map_eq_cons_iff.mp hplaces
    obtain ⟨released, left, rfl, rfl, hleft⟩ := List.map_eq_append_iff.mp hwaiting
    have hheld : (i :: left).map read = _ := congrArg (read i :: ·) hleft
    obtain ⟨written, waiting', hread, hnone, rfl⟩ := ih hheld hrest
    refine ⟨_, waiting', .cons (.operator hkind hopening hclosing fun j hj => ?_) hread, hnone, ?_⟩
    · exact Kind.ne_opening_of_precedence? (hreleased _ (List.mem_map_of_mem hj))
    · rw [List.append_assoc, List.map_append]

/-! ## The order as a whole -/

/-- `order` lists the places of a token list as the tokens are written. -/
structure Ordered (read : α → Token) (places order : List α) : Prop where
  /-- Each place is there once, if it is not that of a parenthesis. -/
  perm : order ~ plain read places
  /-- What stands before an operand stood before it at first. -/
  pairwise : ∀ R : α → α → Prop, places.Pairwise R →
    order.Pairwise fun i j => (read j).kind.isOperand = true → R i j
  /-- A group is in one piece. -/
  group : ∀ before opening inner closing after,
    places = before ++ opening :: (inner ++ closing :: after) → (read opening).kind = .opening →
    (read closing).kind = .closing → Closes 0 (inner.map read) →
    ∃ first inside rest, order = first ++ inside ++ rest ∧ inside ~ plain read inner

/-- A run that leaves operators alone waiting, which are written last. -/
theorem WritesAll.ordered (h : WritesAll read [] places written waiting)
    (hwaiting : ∀ i ∈ waiting, (read i).kind ≠ .opening) :
    Ordered read places (written ++ waiting) := by
  refine ⟨?_, fun R hR => ?_, fun before opening inner closing after hplaces hopening hclosing
    hcloses => ?_⟩
  · have hperm := h.perm held_nil
    rwa [(h.held held_nil).plain_eq hwaiting] at hperm
  · exact h.pairwise held_nil (fun _ hi => absurd hi List.not_mem_nil) hR
  · subst hplaces
    obtain ⟨first, below, second, hbefore, hgroup, rfl⟩ := h.split
    obtain ⟨inside, rest, rfl, hperm⟩ :=
      hgroup.group (hbefore.held held_nil) hopening hclosing hcloses
    exact ⟨first, inside, rest ++ waiting, by simp only [List.append_assoc], hperm⟩

/-- **A token list is reordered along an order of its places.** -/
theorem exists_ordered {ts out : List Token} (h : ofTokens ts = .ok out)
    (hplaces : places.map read = ts) :
    ∃ order, order.map read = out ∧ Ordered read places order := by
  have hnone : ([] : List α).map read = [] := rfl
  obtain ⟨written, waiting, hrun, hwaiting, hout⟩ :=
    (arranged_of_ofTokens h).writesAll hnone hplaces
  exact ⟨written ++ waiting, hout, hrun.ordered hwaiting⟩

end ReversePolish

end RegexStepper

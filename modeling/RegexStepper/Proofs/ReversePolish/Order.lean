import Mathlib.Data.List.FinRange
import Mathlib.Data.List.Sort
import RegexStepper.Proofs.ReversePolish.Places
import RegexStepper.Proofs.ReversePolish.Postorder

/-!
# In which order tokens are written

The order in which a token list is reordered, as a list of its places: `Rearranges ts out order`
says what it keeps, whether or not `ts` is an expression. Nothing here needs a tree: where no
expression is, operators still follow the operands that they followed, and a group, from its
parenthesis to the matching one (`Matched`), stays in one piece.

Headlines:
* **`reordering_keeps_tokens`**: every list that is reordered loses its parentheses and nothing
  else, and has such an order;
* **`Tree.reordered_postorder`**: of a valid tree the order is its postorder.
-/

namespace RegexStepper

namespace ReversePolish

open scoped List

variable {ts out : List Token}

/-- **The output is the input without its parentheses**, in another order. -/
theorem perm_of_ofTokens (h : ofTokens ts = .ok out) :
    out ~ ts.filter fun t => !t.kind.isParenthesis := by
  obtain ⟨order, rfl, hordered⟩ := exists_ordered h (List.map_id ts)
  rw [List.map_id]
  exact hordered.perm

/-! ## Places of a list -/

/-- The group that starts at the place `i` ends at the place `j`: what stands between them closes
all that it opens, and nothing else. -/
structure Matched (ts : List Token) (i j : Fin ts.length) : Prop where
  lt : i < j
  opening : ts[i].kind = .opening
  closing : ts[j].kind = .closing
  inside : Closes 0 ((ts.take j).drop (i + 1))

/-- The tokens of `ts` are written as `out`, from the places listed in `order`. -/
structure Rearranges (ts out : List Token) (order : List (Fin ts.length)) : Prop where
  /-- The token at each place of the order is written. -/
  writes : order.map ts.get = out
  /-- Each place is there once, if it is not that of a parenthesis. -/
  perm : order ~ (List.finRange ts.length).filter fun i => !ts[i].kind.isParenthesis
  /-- Operands keep their order. -/
  operands : order.filter (fun i => ts[i].kind.isOperand) =
    (List.finRange ts.length).filter fun i => ts[i].kind.isOperand
  /-- An operator comes after all operands that stood before it. -/
  operators : ∀ i j, i < j → ts[i].kind.isOperand = true → ts[j].kind.isOperand = false →
    ts[j].kind.isParenthesis = false → [i, j] <+ order
  /-- What stands in a group stays together. -/
  groups : ∀ i j, Matched ts i j → ∃ before inside after, order = before ++ inside ++ after ∧
    ∀ k, k ∈ inside ↔ i < k ∧ k < j ∧ ts[k].kind.isParenthesis = false

/-- The places between two places. -/
theorem mem_between_iff {n : Nat} {i j k : Fin n} :
    k ∈ ((List.finRange n).take j).drop (i + 1) ↔ i < k ∧ k < j := by
  rw [List.mem_iff_getElem]
  simp only [List.getElem_drop, List.getElem_take, List.getElem_finRange, List.length_drop,
    List.length_take, List.length_finRange]
  constructor
  · rintro ⟨m, hm, rfl⟩
    simp only [Fin.lt_def, Fin.val_cast]
    omega
  · rintro ⟨hik, hkj⟩
    refine ⟨k - (i + 1), by omega, ?_⟩
    ext
    simp only [Fin.val_cast]
    omega

/-- All places, those between two of them set apart. -/
theorem finRange_eq_of_lt {n : Nat} {i j : Fin n} (h : i < j) :
    List.finRange n = (List.finRange n).take i ++
      i :: (((List.finRange n).take j).drop (i + 1) ++ j :: (List.finRange n).drop (j + 1)) := by
  have hi : i < ((List.finRange n).take j).length := by
    rw [List.length_take, List.length_finRange]
    omega
  have hj : j < (List.finRange n).length := by
    rw [List.length_finRange]
    exact j.isLt
  have hbefore := List.take_append_drop i ((List.finRange n).take j)
  have hall := List.take_append_drop j (List.finRange n)
  rw [List.drop_eq_getElem_cons hi, List.take_take, Nat.min_eq_left (Nat.le_of_lt h)] at hbefore
  rw [List.drop_eq_getElem_cons hj, ← hbefore, List.append_assoc] at hall
  simpa using hall.symm

namespace Ordered

variable {order : List (Fin ts.length)} {i j : Fin ts.length}

theorem mem_iff (h : Ordered ts.get (List.finRange ts.length) order) :
    i ∈ order ↔ ts[i].kind.isParenthesis = false := by
  rw [h.perm.mem_iff, mem_plain]
  exact and_iff_right (List.mem_finRange i)

/-- Operands keep their order. -/
theorem operands (h : Ordered ts.get (List.finRange ts.length) order) :
    order.filter (fun i => ts[i].kind.isOperand) =
      (List.finRange ts.length).filter fun i => ts[i].kind.isOperand := by
  have hascending : (order.filter fun i => ts[i].kind.isOperand).Pairwise (· < ·) := by
    rw [List.pairwise_filter]
    exact (h.pairwise _ (List.pairwise_lt_finRange _)).imp fun hlt _ hoperand => hlt hoperand
  -- Two ascending lists with the same members are equal.
  refine hascending.eq_of_mem_iff ((List.pairwise_lt_finRange _).filter _) fun i => ?_
  rw [List.mem_filter, List.mem_filter, h.mem_iff]
  simp only [List.mem_finRange, true_and, and_iff_right_iff_imp]
  exact Kind.isParenthesis_of_isOperand

/-- What is written comes after the operands that stood before it. -/
theorem operators (h : Ordered ts.get (List.finRange ts.length) order) (hlt : i < j)
    (hi : ts[i].kind.isOperand = true) (hj : ts[j].kind.isParenthesis = false) :
    [i, j] <+ order := by
  have hpairwise := h.pairwise _ (List.pairwise_lt_finRange _)
  have hj := h.mem_iff.mpr hj
  obtain ⟨before, after, rfl⟩ :=
    List.append_of_mem (h.mem_iff.mpr (Kind.isParenthesis_of_isOperand hi))
  rcases List.mem_append.mp hj with hj | hj
  · have hji := (List.pairwise_append.mp hpairwise).2.2 j hj i List.mem_cons_self hi
    exact absurd hji (Fin.lt_asymm hlt)
  · rcases List.mem_cons.mp hj with rfl | hj
    · exact absurd hlt (Fin.lt_irrefl _)
    · exact ((List.singleton_sublist.mpr hj).cons_cons i).trans (List.sublist_append_right _ _)

/-- What stands in a group stays together. -/
theorem groups (h : Ordered ts.get (List.finRange ts.length) order) (hmatched : Matched ts i j) :
    ∃ before inside after, order = before ++ inside ++ after ∧
      ∀ k, k ∈ inside ↔ i < k ∧ k < j ∧ ts[k].kind.isParenthesis = false := by
  have hinner : (((List.finRange ts.length).take j).drop (i + 1)).map ts.get =
      (ts.take j).drop (i + 1) := by
    rw [List.map_drop, List.map_take, List.map_get_finRange]
  obtain ⟨before, inside, after, horder, hperm⟩ := h.group _ _ _ _ _
    (finRange_eq_of_lt hmatched.lt) hmatched.opening hmatched.closing
    (by rw [hinner]; exact hmatched.inside)
  refine ⟨before, inside, after, horder, fun k => ?_⟩
  rw [hperm.mem_iff, mem_plain, mem_between_iff, and_assoc]
  rfl

end Ordered

/-! ## Main results -/

/-- **Reordering loses and duplicates nothing**, of any token list that it accepts, whether or not
the list is an expression: the output is the input without its parentheses, written in an order in
which operands follow each other as before, no operator comes before an operand that it followed,
and each group stays in one piece. -/
theorem reordering_keeps_tokens (h : ofTokens ts = .ok out) :
    (out ~ ts.filter fun t => !t.kind.isParenthesis) ∧ ∃ order, Rearranges ts out order := by
  obtain ⟨order, hout, hordered⟩ := exists_ordered h (List.map_get_finRange ts)
  exact ⟨perm_of_ofTokens h, order, hout, hordered.perm, hordered.operands,
    fun i j hlt hi _ => hordered.operators hlt hi, fun i j => hordered.groups⟩

/-- A list made by hand, `(a|)a·(+a)`: a union and a repetition lack an operand, and the three
literals are one and the same token. -/
def illFormed : List Token :=
  [⟨.opening, none, none⟩, ⟨.literal, some "a", none⟩, ⟨.union, none, none⟩,
    ⟨.closing, none, none⟩, ⟨.literal, some "a", none⟩, ⟨.concat, none, none⟩,
    ⟨.opening, none, none⟩, ⟨.plus, none, none⟩, ⟨.literal, some "a", none⟩,
    ⟨.closing, none, none⟩]

/-- What is written is no expression, but it is all there, in an order as described. -/
theorem reordering_keeps_tokens_ill_formed :
    ∃ out, ofTokens illFormed = .ok out ∧ Token.textOf out = .ok "a|aa+·" ∧
      evaluate? [] out = none ∧ Matched illFormed ⟨6, by decide⟩ ⟨9, by decide⟩ ∧
      ∃ order, Rearranges illFormed out order := by
  have hout : ofTokens illFormed = .ok _ := rfl
  have hmatched : Matched illFormed ⟨6, by decide⟩ ⟨9, by decide⟩ :=
    ⟨by decide, rfl, rfl, rfl⟩
  exact ⟨_, hout, rfl, rfl, hmatched, (reordering_keeps_tokens hout).2⟩

end ReversePolish

namespace Tree

open ReversePolish

open scoped List

/-- **An expression is reordered into its postorder**, every operator behind its operands, whatever
groups it has and however they nest: these are the tokens of the expression without parentheses. -/
theorem reordered_postorder {tree : Tree} (h : tree.Valid) :
    ofTokens tree.tokens = .ok tree.postorder ∧
      tree.postorder ~ tree.tokens.filter fun t => !t.kind.isParenthesis :=
  ⟨ofTokens_tokens h, perm_of_ofTokens (ofTokens_tokens h)⟩

/-- The tree of `a·b·((c|d))*|e?`. -/
def nested : Tree :=
  let letter (text : String) : Tree := .operand ⟨.literal, some text, none⟩
  let sign (kind : Kind) : Token := ⟨kind, none, none⟩
  let choice : Tree := .union (letter "c") (sign .union) (letter "d")
  let inner : Tree := .group (sign .opening) choice (sign .closing)
  let outer : Tree := .group (sign .opening) inner (sign .closing)
  let pair : Tree := .concat (letter "a") (sign .concat) (letter "b")
  .union (.concat pair (sign .concat) (.quantified outer (sign .star))) (sign .union)
    (.quantified (letter "e") (sign .optional))

/-- Concatenations from left to right, two groups around one choice, and an operator of each
precedence. -/
theorem reordered_postorder_nested :
    nested.Valid ∧ Token.textOf nested.tokens = .ok "a·b·((c|d))*|e?" ∧
      ofTokens nested.tokens = .ok nested.postorder ∧
      Token.textOf nested.postorder = .ok "ab·cd|*·e?|" := by
  have hvalid : nested.Valid := by
    simp [nested, Valid, level, Kind.isOperand, Kind.isQuantifier]
  exact ⟨hvalid, rfl, (reordered_postorder hvalid).1, rfl⟩

end Tree

end RegexStepper

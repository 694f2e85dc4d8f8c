/-!
# Signed positions

A signed index names a position of a sequence: counted from the start if it is not negative, from
the end if it is, `-1` being the last position. `get?_natCast` and `get?_neg` are its two readings.

An index that is no word of 64 bits (`fitsWord`) names no position of any sequence; asking for it is
a fault of its own.
-/

namespace RegexStepper

namespace SignedIndex

variable {α : Type}

/-- The position that `i` names in a sequence of `size` elements. -/
def offset? (size : Nat) (i : Int) : Option Nat :=
  let position := if i < 0 then i + size else i
  if 0 ≤ position ∧ position < size then some position.toNat else none

/-- The element at the position that `i` names. -/
def get? (xs : Array α) (i : Int) : Option α :=
  (offset? xs.size i).bind fun k => xs[k]?

/-- An index is a signed word of 64 bits. -/
def fitsWord (i : Int) : Bool :=
  -0x8000000000000000 ≤ i && i < 0x8000000000000000

/-- Indices in one order of many: those that count from the start, then those that count from the
end. Which order it is does not matter; all that is used of it is `startFirst_perm`. -/
def startFirst (is : List Int) : List Int :=
  is.filter (0 ≤ ·) ++ is.filter (!0 ≤ ·)

theorem startFirst_perm (is : List Int) : (startFirst is).Perm is :=
  List.filter_append_perm _ _

theorem offset?_natCast (size n : Nat) :
    offset? size n = if n < size then some n else none := by
  simp only [offset?, Int.not_lt.2 (Int.natCast_nonneg n), if_false, Int.natCast_nonneg,
    true_and, Int.ofNat_lt, Int.toNat_natCast]

/-- From the start. -/
theorem get?_natCast (xs : Array α) (n : Nat) : get? xs n = xs[n]? := by
  unfold get?
  rw [offset?_natCast]
  split
  · rfl
  · rename_i h
    simp only [Option.bind_none]
    exact (Array.getElem?_eq_none (Nat.le_of_not_lt h)).symm

/-- From the end. -/
theorem get?_neg (xs : Array α) {n : Nat} (hpos : 0 < n) (hle : n ≤ xs.size) :
    get? xs (-n) = xs[xs.size - n]? := by
  have ho : offset? xs.size (-n) = some (xs.size - n) := by
    unfold offset?
    simp only
    rw [if_pos (by omega), if_pos (by omega)]
    congr 1
    omega
  unfold get?
  rw [ho]
  rfl

end SignedIndex

end RegexStepper

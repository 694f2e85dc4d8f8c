/-!
# Base64 for addresses

Bytes are written as characters that are safe in an address: three bytes make a group of four
digits, and a last shorter group is filled up with `=`.

Reading is lenient. It takes either alphabet's last two digits, skips characters that are no digits,
and needs no more of a filled-up group than its digits and enough `=`. After such a group it stops.
A text that ends inside a group is refused.
-/

namespace RegexStepper

namespace Base64

/-- The digit of a value below 64. -/
def digit (n : Nat) : Char :=
  if n < 26 then Char.ofNat ('A'.toNat + n)
  else if n < 52 then Char.ofNat ('a'.toNat + (n - 26))
  else if n < 62 then Char.ofNat ('0'.toNat + (n - 52))
  else if n = 62 then '-'
  else '_'

/-- The value of a digit. -/
def value? (c : Char) : Option Nat :=
  if c.isUpper then some (c.toNat - 'A'.toNat)
  else if c.isLower then some (c.toNat - 'a'.toNat + 26)
  else if c.isDigit then some (c.toNat - '0'.toNat + 52)
  else if c = '-' ∨ c = '+' then some 62
  else if c = '_' ∨ c = '/' then some 63
  else none

/-- The values of the digits of a group of one to three bytes. -/
def split : List UInt8 → List Nat
  | [a] => [a.toNat / 4, a.toNat % 4 * 16]
  | [a, b] => [a.toNat / 4, a.toNat % 4 * 16 + b.toNat / 16, b.toNat % 16 * 4]
  | [a, b, c] =>
    [a.toNat / 4, a.toNat % 4 * 16 + b.toNat / 16, b.toNat % 16 * 4 + c.toNat / 64, c.toNat % 64]
  | _ => []

/-- The whole bytes in the values of a group of two to four digits. -/
def merge : List Nat → List UInt8
  | [a, b] => [UInt8.ofNat (a * 4 + b / 16)]
  | [a, b, c] => [UInt8.ofNat (a * 4 + b / 16), UInt8.ofNat (b % 16 * 16 + c / 4)]
  | [a, b, c, d] =>
    [UInt8.ofNat (a * 4 + b / 16), UInt8.ofNat (b % 16 * 16 + c / 4),
      UInt8.ofNat (c % 4 * 64 + d)]
  | _ => []

/-- The text of some bytes. -/
def encode : List UInt8 → List Char
  | a :: b :: c :: rest => (split [a, b, c]).map digit ++ encode rest
  | [a, b] => (split [a, b]).map digit ++ ['=']
  | [a] => (split [a]).map digit ++ ['=', '=']
  | [] => []

/-- The bytes of the rest of a text. `group` holds the values of the digits of the group being
read, and `fills` counts the `=` after its last digit. -/
def decodeFrom (group : List Nat) (fills : Nat) : List Char → Option (List UInt8)
  | [] => if group.isEmpty then some [] else none
  | '=' :: rest =>
    if group.length < 2 then decodeFrom group fills rest
    else if group.length + (fills + 1) < 4 then decodeFrom group (fills + 1) rest
    else some (merge group)
  | c :: rest =>
    match value? c with
    | none => decodeFrom group fills rest
    | some v =>
      if group.length < 3 then decodeFrom (group ++ [v]) 0 rest
      else (merge (group ++ [v]) ++ ·) <$> decodeFrom [] 0 rest

/-- The bytes of a text. -/
def decode (text : List Char) : Option (List UInt8) :=
  decodeFrom [] 0 text

/-! ## Groups -/

theorem merge_split_one (a : UInt8) : merge (split [a]) = [a] := by
  simp only [split, merge, List.cons.injEq, and_true]
  apply UInt8.toNat_inj.1
  have := a.toNat_lt
  simp only [UInt8.toNat_ofNat']
  omega

theorem merge_split_two (a b : UInt8) : merge (split [a, b]) = [a, b] := by
  have := a.toNat_lt
  have := b.toNat_lt
  simp only [split, merge, List.cons.injEq, and_true]
  refine ⟨UInt8.toNat_inj.1 ?_, UInt8.toNat_inj.1 ?_⟩ <;>
    simp only [UInt8.toNat_ofNat'] <;> omega

/-- The bytes of a full group are those it was written from. -/
theorem merge_split_three (a b c : UInt8) : merge (split [a, b, c]) = [a, b, c] := by
  have := a.toNat_lt
  have := b.toNat_lt
  have := c.toNat_lt
  simp only [split, merge, List.cons.injEq, and_true]
  refine ⟨UInt8.toNat_inj.1 ?_, UInt8.toNat_inj.1 ?_, UInt8.toNat_inj.1 ?_⟩ <;>
    simp only [UInt8.toNat_ofNat'] <;> omega

end Base64

end RegexStepper

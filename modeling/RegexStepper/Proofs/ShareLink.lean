import RegexStepper.ShareLink

/-!
# A link is read back as it was written

Digits of values below 64 enter the group that is being read (`decodeFrom_digits`), the fourth one
completes it, and enough `=` complete a shorter one. The writer makes such groups alone, so that
reading undoes writing (`Base64.decode_encode`); and what it writes is ASCII
(`Base64.isAscii_of_mem_encode`).

Headlines:
* **`ShareLink.decode_encode`**: the parameter of a link holds the pattern that it was written for,
  whatever characters the pattern has;
* **`ShareLink.links_tell_patterns_apart`**: a parameter is ASCII, is never taken for one that holds
  no pattern, and is that of one pattern alone.
-/

namespace RegexStepper

namespace Base64

variable {n : Nat} {group values : List Nat} {rest : List Char} {bytes : List UInt8}

/-! ## Digits -/

/-- **A digit has the value it was written for.** -/
theorem value?_digit (h : n < 64) : value? (digit n) = some n := by
  have hall : ∀ n < 64, value? (digit n) = some n := by decide +kernel
  exact hall n h

theorem digit_ne_fill (h : n < 64) : digit n ≠ '=' := by
  have hfill : value? '=' = none := by decide
  intro heq
  have hvalue := value?_digit h
  rw [heq, hfill] at hvalue
  cases hvalue

theorem isAscii_digit (h : n < 64) : (digit n).toNat < 128 := by
  have hall : ∀ n < 64, (digit n).toNat < 128 := by decide +kernel
  exact hall n h

/-- The values of a group are those of digits. -/
theorem split_lt (bytes : List UInt8) : ∀ v ∈ split bytes, v < 64 := by
  intro v h
  have hbyte : ∀ a : UInt8, a.toNat < 256 := UInt8.toNat_lt
  unfold split at h
  split at h
  · rename_i a
    have := hbyte a
    simp only [List.mem_cons, List.not_mem_nil, or_false] at h
    omega
  · rename_i a b
    have := hbyte a
    have := hbyte b
    simp only [List.mem_cons, List.not_mem_nil, or_false] at h
    omega
  · rename_i a b c
    have := hbyte a
    have := hbyte b
    have := hbyte c
    simp only [List.mem_cons, List.not_mem_nil, or_false] at h
    omega
  · exact absurd h List.not_mem_nil

/-! ## Reading a group -/

theorem decodeFrom_digit (h : n < 64) (group : List Nat) (fills : Nat) (rest : List Char) :
    decodeFrom group fills (digit n :: rest) =
      if group.length < 3 then decodeFrom (group ++ [n]) 0 rest
      else (merge (group ++ [n]) ++ ·) <$> decodeFrom [] 0 rest := by
  rw [decodeFrom]
  · rw [value?_digit h]
  · exact digit_ne_fill h

/-- **Digits enter the group**, as long as they do not complete it. -/
theorem decodeFrom_digits (group : List Nat) (h : ∀ v ∈ values, v < 64)
    (hlength : group.length + values.length ≤ 3) (rest : List Char) :
    decodeFrom group 0 (values.map digit ++ rest) = decodeFrom (group ++ values) 0 rest := by
  induction values generalizing group with
  | nil => rw [List.append_nil, List.map_nil, List.nil_append]
  | cons v values ih =>
    rw [List.length_cons] at hlength
    have hv := h v List.mem_cons_self
    have hvalues := fun u hu => h u (List.mem_cons_of_mem v hu)
    have hgroup : (group ++ [v]).length + values.length ≤ 3 := by
      rw [List.length_append, List.length_singleton]
      omega
    rw [List.map_cons, List.cons_append, decodeFrom_digit hv, if_pos (by omega),
      ih (group ++ [v]) hvalues hgroup, List.append_assoc, List.singleton_append]

/-- Four digits are a full group, and reading starts again behind it. -/
theorem decodeFrom_full {a b c d : Nat} (h : ∀ v ∈ [a, b, c, d], v < 64) (rest : List Char) :
    decodeFrom [] 0 ([a, b, c, d].map digit ++ rest) =
      (merge [a, b, c, d] ++ ·) <$> decodeFrom [] 0 rest := by
  have hthree : ∀ v ∈ [a, b, c], v < 64 := fun v hv => h v (List.mem_append_left [d] hv)
  have hlast : d < 64 := h d (List.mem_append_right [a, b, c] List.mem_cons_self)
  calc decodeFrom [] 0 ([a, b, c, d].map digit ++ rest)
    _ = decodeFrom [a, b, c] 0 (digit d :: rest) :=
      decodeFrom_digits [] hthree (Nat.le_refl 3) (digit d :: rest)
    _ = (merge [a, b, c, d] ++ ·) <$> decodeFrom [] 0 rest := decodeFrom_digit hlast _ 0 rest

/-- Three digits and one `=` end a text. -/
theorem decodeFrom_three {a b c : Nat} (h : ∀ v ∈ [a, b, c], v < 64) :
    decodeFrom [] 0 ([a, b, c].map digit ++ ['=']) = some (merge [a, b, c]) :=
  decodeFrom_digits [] h (Nat.le_refl 3) ['=']

/-- Two digits and two `=` end a text. -/
theorem decodeFrom_two {a b : Nat} (h : ∀ v ∈ [a, b], v < 64) :
    decodeFrom [] 0 ([a, b].map digit ++ ['=', '=']) = some (merge [a, b]) :=
  decodeFrom_digits [] h (Nat.le_succ 2) ['=', '=']

/-! ## Whole texts -/

/-- **Reading undoes writing.** -/
theorem decode_encode (bytes : List UInt8) : decode (encode bytes) = some bytes := by
  unfold decode
  fun_induction encode bytes with
  | case1 a b c rest ih =>
    have hgroup : decodeFrom [] 0 ((split [a, b, c]).map digit ++ encode rest) =
        (merge (split [a, b, c]) ++ ·) <$> decodeFrom [] 0 (encode rest) :=
      decodeFrom_full (split_lt [a, b, c]) (encode rest)
    rw [hgroup, ih, merge_split_three]
    rfl
  | case2 a b =>
    have hgroup : decodeFrom [] 0 ((split [a, b]).map digit ++ ['=']) =
        some (merge (split [a, b])) := decodeFrom_three (split_lt [a, b])
    rw [hgroup, merge_split_two]
  | case3 a =>
    have hgroup : decodeFrom [] 0 ((split [a]).map digit ++ ['=', '=']) =
        some (merge (split [a])) := decodeFrom_two (split_lt [a])
    rw [hgroup, merge_split_one]
  | case4 => rfl

theorem isAscii_of_mem_encode {c : Char} (h : c ∈ encode bytes) : c.toNat < 128 := by
  have hdigits : ∀ {group : List UInt8}, c ∈ (split group).map digit → c.toNat < 128 := by
    intro group hc
    obtain ⟨v, hv, rfl⟩ := List.mem_map.mp hc
    exact isAscii_digit (split_lt group v hv)
  have hfill : ('=' : Char).toNat < 128 := by decide
  fun_induction encode bytes with
  | case1 a b d rest ih => exact (List.mem_append.mp h).elim hdigits ih
  | case2 a b =>
    rcases List.mem_append.mp h with h | h
    · exact hdigits h
    · obtain rfl : c = '=' := by simpa using h
      exact hfill
  | case3 a =>
    rcases List.mem_append.mp h with h | h
    · exact hdigits h
    · obtain rfl : c = '=' := by simpa using h
      exact hfill
  | case4 => exact absurd h List.not_mem_nil

end Base64

namespace ShareLink

/-- A text is read back from its own UTF-8 bytes. -/
theorem fromUTF8?_toUTF8 (s : String) : String.fromUTF8? s.toUTF8 = some s := by
  unfold String.fromUTF8?
  rw [String.toUTF8_eq_toByteArray, dif_pos s.isValidUTF8]
  rfl

/-- A parameter is ASCII, whatever the pattern. -/
theorem isAscii_encode (pattern : String) : ∀ c ∈ (encode pattern).toList, c.toNat < 128 := by
  rw [encode, String.toList_ofList]
  exact fun c hc => Base64.isAscii_of_mem_encode hc

theorem decode?_encode (pattern : String) : decode? (encode pattern) = some pattern := by
  have hascii : (encode pattern).toList.all (fun c => decide (c.toNat < 128)) = true := by
    rw [List.all_eq_true]
    exact fun c hc => decide_eq_true (isAscii_encode pattern c hc)
  unfold decode?
  rw [hascii, encode, String.toList_ofList, Base64.decode_encode]
  exact fromUTF8?_toUTF8 pattern

/-- **A link holds the pattern that it was written for.** -/
theorem decode_encode (pattern fallback : String) : decode (encode pattern) fallback = pattern := by
  rw [decode, decode?_encode, Option.getD_some]

/-- **Links tell patterns apart.** The parameter of any pattern is ASCII and holds that pattern, so
that no fallback is taken for it, and different patterns have different parameters. -/
theorem links_tell_patterns_apart :
    (∀ pattern, (∀ c ∈ (encode pattern).toList, c.toNat < 128) ∧
      decode? (encode pattern) = some pattern ∧
      ∀ fallback, decode (encode pattern) fallback = pattern) ∧
    Function.Injective encode := by
  refine ⟨fun pattern => ⟨isAscii_encode pattern, decode?_encode pattern, decode_encode pattern⟩, ?_⟩
  intro pattern other h
  have hdecoded := congrArg decode? h
  rw [decode?_encode, decode?_encode] at hdecoded
  exact Option.some.inj hdecoded

end ShareLink

end RegexStepper

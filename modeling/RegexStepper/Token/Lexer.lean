import RegexStepper.Fault

/-!
# Reading a pattern

`Token.ofPattern` cuts a pattern into tokens. A backslash takes the next character literally, but
for `\e`, which is the empty string; each of `| * + ? ( )` is an operator; any other character
stands for itself.

Headlines: a token list is as long as the pattern at most (`length_le_of_lexFrom`), and it holds
no concatenation, no unknown kind and no literal but of one character (`written_of_lexFrom`).
-/

namespace RegexStepper

namespace Token

/-- The literal of one character. -/
def ofChar (c : Char) (position : Int) : Token :=
  ⟨.literal, some c.toString, some position⟩

/-- The token of a character that follows no backslash: an operator or a literal. -/
def ofPlain (c : Char) (position : Int) : Token :=
  match Kind.ofOperator? c with
  | some kind => ⟨kind, some c.toString, some position⟩
  | none => ofChar c position

/-- The token of a character that follows a backslash. -/
def ofEscaped (c : Char) (position : Int) : Token :=
  if c = 'e' then ⟨.epsilon, none, some position⟩ else ofChar c position

/-- The tokens of the rest of a pattern, its first character standing at `position`. -/
def lexFrom (position : Nat) : List Char → Except Fault (List Token)
  | [] => .ok []
  | '\\' :: [] => refuse .unterminatedEscape (some position)
  | '\\' :: c :: rest => (ofEscaped c position :: ·) <$> lexFrom (position + 2) rest
  | c :: rest => (ofPlain c position :: ·) <$> lexFrom (position + 1) rest

/-- The tokens of a pattern. -/
def ofPattern (pattern : String) : Except Fault (List Token) :=
  lexFrom 0 pattern.toList

/-! ## The token of a character -/

section

variable {c : Char} {position : Int} {k : Kind}

@[simp] theorem position_ofPlain (c : Char) (position : Int) :
    (ofPlain c position).position = some position := by
  unfold ofPlain
  split <;> rfl

@[simp] theorem position_ofEscaped (c : Char) (position : Int) :
    (ofEscaped c position).position = some position := by
  unfold ofEscaped
  split <;> rfl

/-- An operator is read from its character alone. -/
theorem kind_ofPlain_eq_iff (hk : k ≠ .literal) :
    (ofPlain c position).kind = k ↔ Kind.ofOperator? c = some k := by
  unfold ofPlain
  split
  · rename_i kind h
    simp [h]
  · rename_i h
    simp [ofChar, h, hk.symm]

/-- Behind a backslash no character is an operator. -/
theorem isOperand_ofEscaped (c : Char) (position : Int) :
    (ofEscaped c position).kind.isOperand = true := by
  unfold ofEscaped
  split <;> rfl

end

/-! ## One step of the reading -/

@[simp] theorem lexFrom_nil (position : Nat) : lexFrom position [] = .ok [] := rfl

@[simp] theorem lexFrom_escaped (position : Nat) (c : Char) (rest : List Char) :
    lexFrom position ('\\' :: c :: rest) =
      (ofEscaped c position :: ·) <$> lexFrom (position + 2) rest := rfl

theorem lexFrom_plain {c : Char} (hc : c ≠ '\\') (position : Nat) (rest : List Char) :
    lexFrom position (c :: rest) =
      (ofPlain c position :: ·) <$> lexFrom (position + 1) rest := by
  cases rest <;> simp [lexFrom, hc]

/-- Induction on a pattern as it is read: a backslash goes with the character behind it. -/
@[elab_as_elim]
theorem reading_induction {motive : List Char → Prop} (nil : motive []) (lone : motive ['\\'])
    (escaped : ∀ c rest, motive rest → motive ('\\' :: c :: rest))
    (plain : ∀ c rest, c ≠ '\\' → motive rest → motive (c :: rest)) (cs : List Char) :
    motive cs := by
  fun_induction lexFrom 0 cs with
  | case1 => exact nil
  | case2 => exact lone
  | case3 _ c rest ih => exact escaped c rest ih
  | case4 _ c rest hlone hescaped ih =>
    refine plain c rest ?_ ih
    rintro rfl
    cases rest with
    | nil => exact hlone rfl rfl
    | cons d rest => exact hescaped d rest rfl rfl

/-! ## What a reading holds -/

/-- No pattern has more tokens than characters. -/
theorem length_le_of_lexFrom {position : Nat} {cs : List Char} {ts : List Token}
    (h : lexFrom position cs = .ok ts) : ts.length ≤ cs.length := by
  fun_induction lexFrom position cs generalizing ts with
  | case1 => cases h; simp
  | case2 => cases h
  | case3 position c rest ih =>
    obtain ⟨us, hus, rfl⟩ := map_eq_ok.1 h
    have := ih hus
    simp only [List.length_cons]
    omega
  | case4 position c rest _ _ ih =>
    obtain ⟨us, hus, rfl⟩ := map_eq_ok.1 h
    have := ih hus
    simp only [List.length_cons]
    omega

/-- A token as a pattern writes it: no concatenation is written, and a literal is one character. -/
structure Written (t : Token) : Prop where
  kind_ne_concat : t.kind ≠ .concat
  kind_ne_other : ∀ name, t.kind ≠ .other name
  value_eq : t.kind = .literal → ∃ c : Char, t.value = some c.toString

theorem written_ofChar (c : Char) (position : Int) : (ofChar c position).Written :=
  ⟨by simp [ofChar], by simp [ofChar], fun _ => ⟨c, rfl⟩⟩

theorem written_ofPlain (c : Char) (position : Int) : (ofPlain c position).Written := by
  unfold ofPlain
  split
  · rename_i kind h
    obtain ⟨hconcat, hother⟩ := Kind.ofOperator?_eq_some h
    exact ⟨hconcat, hother, fun _ => ⟨c, rfl⟩⟩
  · exact written_ofChar c position

theorem written_ofEscaped (c : Char) (position : Int) : (ofEscaped c position).Written := by
  unfold ofEscaped
  split
  · exact ⟨by simp, by simp, by simp⟩
  · exact written_ofChar c position

/-- What holds of each character read on its own and of each one read behind a backslash, at the
places of the pattern, holds of every token. -/
theorem forall_of_lexFrom {P : Token → Prop} {position : Nat} {cs : List Char} {ts : List Token}
    (h : lexFrom position cs = .ok ts)
    (hplain : ∀ c (n : Nat), position ≤ n → n < position + cs.length → P (ofPlain c n))
    (hescaped : ∀ c (n : Nat), position ≤ n → n < position + cs.length → P (ofEscaped c n)) :
    ∀ t ∈ ts, P t := by
  fun_induction lexFrom position cs generalizing ts with
  | case1 => cases h; simp
  | case2 => cases h
  | case3 position c rest ih =>
    obtain ⟨us, hus, rfl⟩ := map_eq_ok.1 h
    simp only [List.length_cons] at hplain hescaped
    intro t ht
    rcases List.mem_cons.1 ht with rfl | ht
    · exact hescaped c position (Nat.le_refl _) (by omega)
    · exact ih hus (fun c n _ _ => hplain c n (by omega) (by omega))
        (fun c n _ _ => hescaped c n (by omega) (by omega)) t ht
  | case4 position c rest _ _ ih =>
    obtain ⟨us, hus, rfl⟩ := map_eq_ok.1 h
    simp only [List.length_cons] at hplain hescaped
    intro t ht
    rcases List.mem_cons.1 ht with rfl | ht
    · exact hplain c position (Nat.le_refl _) (by omega)
    · exact ih hus (fun c n _ _ => hplain c n (by omega) (by omega))
        (fun c n _ _ => hescaped c n (by omega) (by omega)) t ht

/-- **A pattern yields written tokens only.** -/
theorem written_of_lexFrom {position : Nat} {cs : List Char} {ts : List Token}
    (h : lexFrom position cs = .ok ts) : ∀ t ∈ ts, t.Written :=
  forall_of_lexFrom h (fun c n _ _ => written_ofPlain c n) fun c n _ _ => written_ofEscaped c n

end Token

end RegexStepper

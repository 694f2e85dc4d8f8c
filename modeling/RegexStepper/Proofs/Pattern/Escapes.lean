import Mathlib.Data.List.Induction
import RegexStepper.Token.Lexer

/-!
# Backslashes

Which characters of a pattern are taken literally, told from the pattern alone: a run of backslashes
before a character takes it literally if it is odd. `Pattern.Hanging` says so of the run at the end
of a text, and `Pattern.Unescaped` of a character in it.

The lexer goes from left to right and takes two characters at a backslash, so that it never looks
back at a run. Both agree: what is left of a pattern hangs whether or not what has been read is
taken off (`hanging_cons`, `hanging_escape`).

Headlines: a pattern is refused by the lexer iff it hangs, at its last character
(`Token.lexFrom_of_hanging`, `Token.exists_lexFrom`), and what does not hang is read on its own
(`Token.lexFrom_append`).
-/

namespace RegexStepper

namespace Pattern

variable {cs before rest : List Char} {c d : Char}

/-- How many backslashes stand in a row at the end of a text. -/
def backslashes (cs : List Char) : Nat :=
  (cs.reverse.takeWhile (· == '\\')).length

/-- The last character is a backslash that takes what follows literally: the run it ends is odd. -/
def Hanging (cs : List Char) : Prop :=
  backslashes cs % 2 = 1

instance : DecidablePred Hanging := fun cs => inferInstanceAs (Decidable (backslashes cs % 2 = 1))

/-- The character `c` stands at place `i` of a text, and no backslash takes it literally. -/
def Unescaped (cs : List Char) (c : Char) (i : Nat) : Prop :=
  cs[i]? = some c ∧ ¬ Hanging (cs.take i)

instance (cs : List Char) (c : Char) (i : Nat) : Decidable (Unescaped cs c i) :=
  inferInstanceAs (Decidable (cs[i]? = some c ∧ ¬ Hanging (cs.take i)))

/-! ## At the end of a text -/

theorem not_hanging_nil : ¬ Hanging [] := by decide

theorem hanging_concat_backslash : Hanging (cs ++ ['\\']) ↔ ¬ Hanging cs := by
  simp only [Hanging, backslashes, List.reverse_append, List.reverse_singleton,
    List.singleton_append, List.takeWhile_cons, BEq.rfl, if_true, List.length_cons]
  omega

theorem not_hanging_concat (h : c ≠ '\\') : ¬ Hanging (cs ++ [c]) := by
  simp [Hanging, backslashes, h]

theorem not_hanging_append_escape (h : ¬ Hanging cs) : ¬ Hanging (cs ++ ['\\', c]) := by
  rw [List.append_cons]
  by_cases hc : c = '\\'
  · rw [hc, hanging_concat_backslash, hanging_concat_backslash]
    exact not_not_intro h
  · exact not_hanging_concat hc

/-! ## At the start of a text -/

/-- What stands before a character that is no backslash changes nothing for what follows it. -/
theorem hanging_append_cons (h : c ≠ '\\') : Hanging (before ++ c :: cs) ↔ Hanging cs := by
  induction cs using List.reverseRecOn with
  | nil => exact iff_of_false (not_hanging_concat h) not_hanging_nil
  | append_singleton cs d ih =>
    rw [← List.cons_append, ← List.append_assoc]
    by_cases hd : d = '\\'
    · rw [hd, hanging_concat_backslash, hanging_concat_backslash, ih]
    · exact iff_of_false (not_hanging_concat hd) (not_hanging_concat hd)

/-- Nor does the character itself. -/
theorem hanging_cons (h : c ≠ '\\') : Hanging (c :: cs) ↔ Hanging cs :=
  @hanging_append_cons cs [] c h

/-- Nor do a backslash and the character that it takes literally. -/
theorem hanging_escape : Hanging ('\\' :: c :: cs) ↔ Hanging cs := by
  induction cs using List.reverseRecOn with
  | nil =>
    by_cases hc : c = '\\'
    · rw [hc]
      decide
    · exact iff_of_false (@not_hanging_concat ['\\'] c hc) not_hanging_nil
  | append_singleton cs d ih =>
    rw [← List.cons_append, ← List.cons_append]
    by_cases hd : d = '\\'
    · rw [hd, hanging_concat_backslash, hanging_concat_backslash, ih]
    · exact iff_of_false (not_hanging_concat hd) (not_hanging_concat hd)

/-! ## Where one character ends and the next begins -/

/-- A character is taken literally iff what stands before it hangs. -/
theorem unescaped_append_iff :
    Unescaped (before ++ c :: rest) d before.length ↔ d = c ∧ ¬ Hanging before := by
  simp [Unescaped, eq_comm]

theorem Unescaped.lt_length {i : Nat} (h : Unescaped cs c i) : i < cs.length :=
  (List.getElem?_eq_some_iff.mp h.1).1

/-- What stands behind a text changes nothing in it. -/
theorem unescaped_append_left {i : Nat} (h : i < cs.length) :
    Unescaped (cs ++ rest) c i ↔ Unescaped cs c i := by
  rw [Unescaped, Unescaped, List.getElem?_append_left h,
    List.take_append_of_le_length (Nat.le_of_lt h)]

/-- Behind a backslash that is not taken literally itself no character is unescaped. -/
theorem not_unescaped_append (h : ¬ Hanging before) :
    ¬ Unescaped (before ++ '\\' :: c :: rest) d (before.length + 1) := by
  have hcs : before ++ '\\' :: c :: rest = (before ++ ['\\']) ++ c :: rest := by simp
  have hlength : (before ++ ['\\']).length = before.length + 1 := List.length_append
  rw [hcs, ← hlength, unescaped_append_iff, hanging_concat_backslash]
  exact fun hd => hd.2 h

end Pattern

/-! ## The lexer -/

namespace Token

open Pattern

variable {cs rest : List Char} {position : Nat} {ts : List Token}

/-- **A pattern that hangs is refused** at its last character. -/
theorem lexFrom_of_hanging (h : Hanging cs) :
    lexFrom position cs = refuse .unterminatedEscape (some (position + cs.length - 1 : Nat)) := by
  induction cs using reading_induction generalizing position with
  | nil => exact absurd h not_hanging_nil
  | lone => rfl
  | escaped c rest ih =>
    have hlast : position + 2 + rest.length - 1 = position + (rest.length + 1 + 1) - 1 := by omega
    rw [lexFrom_escaped, ih (hanging_escape.mp h), List.length_cons, List.length_cons, hlast]
    rfl
  | plain c rest hc ih =>
    have hlast : position + 1 + rest.length - 1 = position + (rest.length + 1) - 1 := by omega
    rw [lexFrom_plain hc, ih ((hanging_cons hc).mp h), List.length_cons, hlast]
    rfl

/-- **A pattern that does not hang has tokens.** -/
theorem exists_lexFrom (h : ¬ Hanging cs) : ∃ ts, lexFrom position cs = .ok ts := by
  induction cs using reading_induction generalizing position with
  | nil => exact ⟨[], rfl⟩
  | lone => exact absurd (show Hanging ['\\'] by decide) h
  | escaped c rest ih =>
    obtain ⟨ts, hts⟩ := @ih (position + 2) fun hrest => h (hanging_escape.mpr hrest)
    exact ⟨_, map_eq_ok.mpr ⟨ts, hts, rfl⟩⟩
  | plain c rest hc ih =>
    obtain ⟨ts, hts⟩ := @ih (position + 1) fun hrest => h ((hanging_cons hc).mpr hrest)
    exact ⟨_, by rw [lexFrom_plain hc, hts]; rfl⟩

/-- **What has been read on its own** is read alike with more behind it. -/
theorem lexFrom_append (h : lexFrom position cs = .ok ts) (more : List Char) :
    lexFrom position (cs ++ more) = (ts ++ ·) <$> lexFrom (position + cs.length) more := by
  induction cs using reading_induction generalizing position ts with
  | nil =>
    cases h
    exact (id_map _).symm
  | lone => cases h
  | escaped c rest ih =>
    obtain ⟨us, hus, rfl⟩ := map_eq_ok.mp h
    have hend : position + 2 + rest.length = position + (rest.length + 1 + 1) := by omega
    rw [List.cons_append, List.cons_append, lexFrom_escaped, ih hus, Functor.map_map,
      List.length_cons, List.length_cons, hend]
    rfl
  | plain c rest hc ih =>
    rw [lexFrom_plain hc] at h
    obtain ⟨us, hus, rfl⟩ := map_eq_ok.mp h
    have hend : position + 1 + rest.length = position + (rest.length + 1) := by omega
    rw [List.cons_append, lexFrom_plain hc, ih hus, Functor.map_map, List.length_cons, hend]
    rfl

end Token

end RegexStepper

import RegexStepper.Proofs.Pattern.Escapes
import RegexStepper.Proofs.Printing

/-!
# A printed list is a pattern

The text of a token list can be read as a pattern again. A literal that would be read as something
else is printed behind a backslash, and no literal `e` is, so that every literal comes back as
itself; an operator is printed as its sign. The two marks that the printer introduces have no
meaning in a pattern: they come back as literals (`Token.reread`).

Headline: **`printed_tokens_reread`**.
-/

namespace RegexStepper

namespace Token

variable {t : Token} {ts : List Token}

/-- What a token is read as when its text is taken for a pattern. -/
def reread (t : Token) : Kind × Option String :=
  match t.kind with
  | .epsilon => (.literal, some epsilonSign)
  | .concat => (.literal, some concatSign)
  | _ => t.face

theorem reread_of_ne (hepsilon : t.kind ≠ .epsilon) (hconcat : t.kind ≠ .concat) :
    t.reread = t.face := by
  unfold reread
  split
  · exact absurd ‹_› hepsilon
  · exact absurd ‹_› hconcat
  · rfl

theorem reread_of_epsilon (h : t.kind = .epsilon) : t.reread = (.literal, some epsilonSign) := by
  unfold reread
  rw [h]

/-- Of the tokens that a pattern can hold, the empty string alone does not come back. -/
theorem reread_eq_face_iff (hconcat : t.kind ≠ .concat) :
    t.reread = t.face ↔ t.kind ≠ .epsilon := by
  refine ⟨fun h hepsilon => ?_, fun hepsilon => reread_of_ne hepsilon hconcat⟩
  rw [reread_of_epsilon hepsilon] at h
  exact nomatch (congrArg Prod.fst h).trans hepsilon

theorem map_reread_eq_iff (hts : ∀ t ∈ ts, t.kind ≠ .concat) :
    ts.map reread = ts.map face ↔ ∀ t ∈ ts, t.kind ≠ .epsilon := by
  rw [List.map_inj_left]
  exact forall₂_congr fun t ht => reread_eq_face_iff (hts t ht)

/-- **A printed token** is read as one token. -/
theorem PrintedAs.exists_lexFrom {cs : List Char} (h : t.PrintedAs cs) (n : Nat) :
    ∃ u, lexFrom n cs = .ok [u] ∧ u.face = t.reread := by
  cases h with
  | @escaped c position hc =>
    have he : c ≠ 'e' := by
      rintro rfl
      revert hc
      decide
    refine ⟨ofEscaped c n, rfl, ?_⟩
    rw [ofEscaped, if_neg he]
    rfl
  | @plain c position hc =>
    refine ⟨ofPlain c n, by rw [lexFrom_plain (ne_backslash hc)]; rfl, ?_⟩
    rw [ofPlain, ofOperator?_eq_none hc]
    rfl
  | epsilon position => exact ⟨_, rfl, rfl⟩
  | concat position => exact ⟨_, rfl, rfl⟩
  | operator position hkind =>
    refine Kind.operator_cases ?_ ?_ ?_ ?_ ?_ ?_ hkind <;> exact ⟨_, rfl, rfl⟩

/-- **A printed list** is read as one token for each. -/
theorem exists_textOf_lexFrom (h : ∀ t ∈ ts, t.Regular) :
    ∃ text us, textOf ts = .ok text ∧ lexFrom 0 text.toList = .ok us ∧
      us.map face = ts.map reread := by
  obtain ⟨texts, htexts, hprinted⟩ := exists_textOf_join fun t ht => (h t ht).exists_printedAs
  have hlex : ∀ n, ∃ us, lexFrom n (String.join texts).toList = .ok us ∧
      us.map face = ts.map reread := by
    clear h htexts
    induction hprinted with
    | nil => exact fun n => ⟨[], rfl, rfl⟩
    | cons hprinted _ ih =>
      intro n
      obtain ⟨u, hu, hface⟩ := hprinted.exists_lexFrom n
      obtain ⟨us, hus, hfaces⟩ := ih _
      refine ⟨u :: us, ?_, by rw [List.map_cons, List.map_cons, hface, hfaces]⟩
      rw [String.join_cons, String.toList_append, lexFrom_append hu, hus]
      rfl
  obtain ⟨us, hus, hfaces⟩ := hlex 0
  exact ⟨_, us, htexts, hus, hfaces⟩

end Token

open Token

variable {p : String} {ts : List Token}

/-- **Printing is undone by reading.** The tokens of a pattern can be printed, and the text can be
read as a pattern. It has as many tokens, of the same kinds and values in the same order if none of
the first ones is the empty string, whichever characters were escaped; and only then, as the sign of
the empty string is read as a literal. -/
theorem printed_tokens_reread (h : ofPattern p = .ok ts) :
    ∃ text us, textOf ts = .ok text ∧ ofPattern text = .ok us ∧ us.map face = ts.map reread ∧
      (us.map face = ts.map face ↔ ∀ t ∈ ts, t.kind ≠ .epsilon) := by
  have hregular : ∀ t ∈ ts, t.Regular :=
    forall_of_lexFrom h (fun c n _ _ => regular_ofPlain c n) fun c n _ _ => regular_ofEscaped c n
  have hconcat : ∀ t ∈ ts, t.kind ≠ .concat :=
    fun t ht => (written_of_lexFrom h t ht).kind_ne_concat
  obtain ⟨text, us, htext, hus, hfaces⟩ := exists_textOf_lexFrom hregular
  refine ⟨text, us, htext, hus, hfaces, ?_⟩
  rw [hfaces]
  exact map_reread_eq_iff hconcat

/-- Literals of both kinds: a backslash before an `e`, an operator and a `b` that are escaped, the
sign of the empty string with and without a backslash, and the sign of a concatenation. -/
theorem printed_tokens_reread_escapes :
    ∃ ts us, ofPattern "\\\\e\\(\\b|ε\\ε·*" = .ok ts ∧ textOf ts = .ok "\\\\e\\(b|\\ε\\ε·*" ∧
      ofPattern "\\\\e\\(b|\\ε\\ε·*" = .ok us ∧ us ≠ ts ∧ us.map face = ts.map face := by
  have hts : ofPattern "\\\\e\\(\\b|ε\\ε·*" = .ok _ := rfl
  have hagain : ofPattern "\\\\e\\(b|\\ε\\ε·*" = .ok _ := rfl
  obtain ⟨text, us, htext, hus, _, hsame⟩ := printed_tokens_reread hts
  obtain rfl : text = "\\\\e\\(b|\\ε\\ε·*" := Except.ok.inj (htext.symm.trans rfl)
  obtain rfl := Except.ok.inj (hagain.symm.trans hus)
  exact ⟨_, _, hts, htext, hagain, by decide, hsame.mpr (by decide)⟩

end RegexStepper

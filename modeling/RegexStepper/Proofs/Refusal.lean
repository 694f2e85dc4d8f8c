import RegexStepper.Compile
import RegexStepper.Proofs.Grammar.Recovery
import RegexStepper.Proofs.Thompson.Finish

/-!
# Known tokens

Tokens made by hand can fail in ways that say nothing about a pattern: their kind may be unknown,
or a literal may have no text. The tokens of a pattern are `Token.Known`, and a stage that reads
known tokens fails with errors of the pattern alone: it finds a precedence for each operator and a
text for each token it reports.

Headlines:
* **`ReversePolish.settles_arrange`**: reordering looks at nothing but the parentheses. The one that
  is unmatched (`ReversePolish.unmatched?`) is reported, and where there is none it succeeds;
* **`Drafting.malformed_of_assemble`**: what cannot be assembled is reported as malformed, without
  a position or at that of a token.
-/

namespace RegexStepper

/-! ## Failing with a given error -/

section

variable {α β : Type} {x : Except Fault α}

/-- `x` fails with the error that is given, and succeeds if none is. -/
def Settles (x : Except Fault α) : Option PatternError → Prop
  | none => ∃ a, x = .ok a
  | some e => x = .error (.pattern e)

variable {verdict : Option PatternError}

theorem Settles.map {f : α → β} (h : Settles x verdict) : Settles (f <$> x) verdict := by
  cases verdict with
  | none =>
    obtain ⟨a, rfl⟩ := h
    exact ⟨f a, rfl⟩
  | some e =>
    rw [show x = .error (.pattern e) from h]
    rfl

end

/-- The causes that show when the expressions are put together: an operator lacks an operand, or
what is left is not one expression. -/
def Cause.isMalformed : Cause → Bool
  | tooFewOperands .. | unexpectedToken _ | notOneFragment _ => true
  | _ => false

/-! ## Tokens of a pattern -/

namespace Token

/-- A token of a kind with a meaning that has its text if it is a literal. -/
structure Known (t : Token) : Prop where
  kind_ne_other : ∀ name, t.kind ≠ .other name
  value_isSome : t.kind = .literal → t.value.isSome = true

variable {t : Token} {ts : List Token}

theorem Written.known (h : t.Written) : t.Known := by
  refine ⟨h.kind_ne_other, fun hkind => ?_⟩
  obtain ⟨c, hc⟩ := h.value_eq hkind
  rw [hc]
  rfl

theorem known_concatBefore (right : Token) : (concatBefore right).Known :=
  ⟨by simp [concatBefore], by simp [concatBefore]⟩

/-- What holds of the token of every character of a pattern, alone or behind a backslash, holds of
the joined list if it passes on to the concatenations. -/
theorem forall_of_joinedOfPattern {P : Token → Prop} {pattern : String}
    (h : joinedOfPattern pattern = .ok ts)
    (hplain : ∀ c (n : Nat), n < pattern.toList.length → P (ofPlain c n))
    (hescaped : ∀ c (n : Nat), n < pattern.toList.length → P (ofEscaped c n))
    (hconcat : ∀ t, P t → P (concatBefore t)) : ∀ t ∈ ts, P t := by
  obtain ⟨spelled, hspelled, rfl⟩ := map_eq_ok.mp h
  have hall : ∀ t ∈ spelled, P t :=
    forall_of_lexFrom hspelled (fun c n _ hn => hplain c n (by omega))
      fun c n _ hn => hescaped c n (by omega)
  exact forall_mem_join hall fun t ht => hconcat t (hall t ht)

/-- **The tokens of a pattern are known.** -/
theorem known_of_joinedOfPattern {pattern : String} (h : joinedOfPattern pattern = .ok ts) :
    ∀ t ∈ ts, t.Known :=
  forall_of_joinedOfPattern h (fun c n _ => (written_ofPlain c n).known)
    (fun c n _ => (written_ofEscaped c n).known) fun t _ => known_concatBefore t

/-- A known token has a text. -/
theorem Known.exists_piece (h : t.Known) : ∃ text, t.piece = .ok (some text) := by
  unfold piece
  cases hkind : t.kind with
  | literal =>
    obtain ⟨value, hvalue⟩ := Option.isSome_iff_exists.mp (h.value_isSome hkind)
    exact ⟨_, by rw [hvalue]; rfl⟩
  | other name => exact absurd hkind (h.kind_ne_other name)
  | _ => exact ⟨_, rfl⟩

/-- Tokens that each have a text are printed as the texts in a row, and what is known of each token
and its text is known of them. -/
theorem exists_textOf_join {R : Token → String → Prop}
    (h : ∀ t ∈ ts, ∃ text, t.piece = .ok (some text) ∧ R t text) :
    ∃ texts, textOf ts = .ok (String.join texts) ∧ List.Forall₂ R ts texts := by
  have hpieces : ∃ texts : List String, ts.mapM piece = .ok (texts.map some) ∧
      List.Forall₂ R ts texts := by
    induction ts with
    | nil => exact ⟨[], rfl, .nil⟩
    | cons t ts ih =>
      obtain ⟨text, htext, hR⟩ := h t List.mem_cons_self
      obtain ⟨texts, htexts, hRs⟩ := ih fun u hu => h u (List.mem_cons_of_mem t hu)
      refine ⟨text :: texts, ?_, .cons hR hRs⟩
      rw [List.mapM_cons, htext, htexts]
      rfl
  obtain ⟨texts, htexts, hRs⟩ := hpieces
  exact ⟨texts, textOf_of_pieces htexts, hRs⟩

/-- **Known tokens can be printed.** -/
theorem exists_textOf (h : ∀ t ∈ ts, t.Known) : ∃ text, textOf ts = .ok text := by
  obtain ⟨texts, htexts, _⟩ := @exists_textOf_join ts (fun _ _ => True) fun t ht =>
    (h t ht).exists_piece.imp fun text htext => ⟨htext, trivial⟩
  exact ⟨_, htexts⟩

theorem Known.exists_text (h : t.Known) : ∃ text, t.text = .ok text :=
  exists_textOf fun _ hu => List.mem_singleton.mp hu ▸ h

/-- What a known token is blamed for is that the list is malformed at its position. -/
theorem Known.malformed (h : t.Known) {fault : Fault} (hblamed : t.Blamed fault) :
    ∃ cause, fault = .pattern ⟨cause, t.position⟩ ∧ cause.isMalformed = true := by
  cases hblamed with
  | tooFew => exact ⟨_, rfl, rfl⟩
  | unexpected => exact ⟨_, rfl, rfl⟩
  | unprintable hfault =>
    obtain ⟨text, htext⟩ := h.exists_text
    rw [htext] at hfault
    cases hfault

/-- A known token that is neither an operand nor a parenthesis is an operator. -/
theorem Known.precedence?_isSome (h : t.Known) (hoperand : t.kind.isOperand = false)
    (hopening : t.kind ≠ .opening) (hclosing : t.kind ≠ .closing) :
    t.kind.precedence?.isSome = true := by
  cases hkind : t.kind with
  | literal | epsilon =>
    rw [hkind] at hoperand
    cases hoperand
  | opening => exact absurd hkind hopening
  | closing => exact absurd hkind hclosing
  | other name => exact absurd hkind (h.kind_ne_other name)
  | _ => rfl

end Token

/-! ## Reordering -/

namespace ReversePolish

variable {waiting ts : List Token} {k : Kind}

/-- What waits is an operator or an open group. -/
def Waits (waiting : List Token) : Prop :=
  ∀ t ∈ waiting, t.kind = .opening ∨ t.kind.precedence?.isSome = true

theorem waits_nil : Waits [] := fun _ ht => absurd ht List.not_mem_nil

theorem Waits.tail {t : Token} (h : Waits (t :: waiting)) : Waits waiting :=
  fun u hu => h u (List.mem_cons_of_mem t hu)

theorem Waits.cons {t : Token} (h : Waits waiting)
    (ht : t.kind = .opening ∨ t.kind.precedence?.isSome = true) : Waits (t :: waiting) := by
  intro u hu
  rcases List.mem_cons.mp hu with rfl | hu
  · exact ht
  · exact h u hu

theorem Waits.right {released left : List Token} (h : Waits (released ++ left)) : Waits left :=
  fun t ht => h t (List.mem_append_right released ht)

/-- Comparing operators with operators never fails. -/
theorem exists_release (hk : k.precedence?.isSome = true) (h : Waits waiting) :
    ∃ result, release k waiting = .ok result := by
  obtain ⟨asked, hasked⟩ := Option.isSome_iff_exists.mp hk
  induction waiting with
  | nil => exact ⟨_, rfl⟩
  | cons top waiting ih =>
    unfold release
    by_cases hopening : top.kind = .opening
    · exact ⟨_, if_pos hopening⟩
    · obtain ⟨held, hheld⟩ :=
        Option.isSome_iff_exists.mp ((h top List.mem_cons_self).resolve_left hopening)
      rw [if_neg hopening, precedence_eq hheld, precedence_eq hasked]
      simp only [bind, Except.bind]
      split
      · obtain ⟨result, hresult⟩ := ih h.tail
        rw [hresult]
        exact ⟨_, rfl⟩
      · exact ⟨_, rfl⟩

/-- The parenthesis that is reported when a list is read with the groups at `opened` open: the first
one that closes no group, else that of the innermost group that is never closed. -/
def unmatched? (opened : List (Option Int)) : List Token → Option PatternError
  | [] => opened.head?.map fun position => ⟨.unmatchedOpening, position⟩
  | t :: rest =>
    match t.kind, opened with
    | .opening, _ => unmatched? (t.position :: opened) rest
    | .closing, [] => some ⟨.unmatchedClosing, t.position⟩
    | .closing, _ :: outer => unmatched? outer rest
    | _, _ => unmatched? opened rest

section

variable {opened : List (Option Int)} {t : Token} {rest : List Token}

theorem unmatched?_opening (h : t.kind = .opening) :
    unmatched? opened (t :: rest) = unmatched? (t.position :: opened) rest := by
  simp only [unmatched?, h]

theorem unmatched?_closing_nil (h : t.kind = .closing) :
    unmatched? [] (t :: rest) = some ⟨.unmatchedClosing, t.position⟩ := by
  simp only [unmatched?, h]

theorem unmatched?_closing_cons (h : t.kind = .closing) (place : Option Int) :
    unmatched? (place :: opened) (t :: rest) = unmatched? opened rest := by
  simp only [unmatched?, h]

theorem unmatched?_other (hopening : t.kind ≠ .opening) (hclosing : t.kind ≠ .closing) :
    unmatched? opened (t :: rest) = unmatched? opened rest := by
  cases hkind : t.kind <;> simp_all [unmatched?]

theorem unmatched?_operand (h : t.kind.isOperand = true) :
    unmatched? opened (t :: rest) = unmatched? opened rest := by
  rcases Kind.isOperand_iff.mp h with hkind | hkind <;> simp [unmatched?, hkind]

end

/-! ### Concatenations are no parentheses -/

theorem unmatched?_congr {opened : List (Option Int)} {rest rest' : List Token} (t : Token)
    (h : ∀ opened, unmatched? opened rest = unmatched? opened rest') :
    unmatched? opened (t :: rest) = unmatched? opened (t :: rest') := by
  unfold unmatched?
  split <;> first | exact h _ | rfl

theorem unmatched?_filter (opened : List (Option Int)) (ts : List Token) :
    unmatched? opened (ts.filter (·.kind != .concat)) = unmatched? opened ts := by
  induction ts generalizing opened with
  | nil => rfl
  | cons t rest ih =>
    by_cases h : t.kind = .concat
    · rw [List.filter_cons_of_neg (by simp [h]), unmatched?_other (by simp [h]) (by simp [h])]
      exact ih opened
    · rw [List.filter_cons_of_pos (by simp [h])]
      exact unmatched?_congr t ih

theorem unmatched?_join (opened : List (Option Int)) (ts : List Token) :
    unmatched? opened (Token.join ts) = unmatched? opened ts := by
  rw [← unmatched?_filter, Token.filter_join, unmatched?_filter]

/-! ### The run -/

theorem settles_drain (waiting : List Token) :
    Settles (drain waiting) (unmatched? (openings waiting) []) := by
  induction waiting with
  | nil => exact ⟨[], rfl⟩
  | cons top waiting ih =>
    unfold drain
    by_cases h : top.kind = .opening
    · rw [if_pos h, openings_opening h]
      rfl
    · rw [if_neg h, openings_other h]
      exact ih.map

/-- The end of a group is refused where no group is open. -/
theorem closeGroup_of_openings_nil (position : Option Int) (h : openings waiting = []) :
    closeGroup position waiting = refuse .unmatchedClosing position := by
  induction waiting with
  | nil => rfl
  | cons top waiting ih =>
    unfold closeGroup
    by_cases hopening : top.kind = .opening
    · rw [openings_opening hopening] at h
      cases h
    · rw [openings_other hopening] at h
      rw [if_neg hopening, ih h]
      rfl

/-- The end of a group closes the innermost group that is open. -/
theorem closeGroup_of_openings_cons (position : Option Int) {place : Option Int}
    {outer : List (Option Int)} (h : openings waiting = place :: outer) :
    ∃ released left, closeGroup position waiting = .ok (released, left) ∧ openings left = outer := by
  induction waiting with
  | nil => cases h
  | cons top waiting ih =>
    unfold closeGroup
    by_cases hopening : top.kind = .opening
    · rw [openings_opening hopening] at h
      exact ⟨[], waiting, if_pos hopening, (List.cons.inj h).2⟩
    · rw [openings_other hopening] at h
      obtain ⟨released, left, hclose, hleft⟩ := ih h
      refine ⟨top :: released, left, ?_, hleft⟩
      rw [if_neg hopening, hclose]
      rfl

/-- **Reordering known tokens** reports the unmatched parenthesis, and succeeds if there is none. -/
theorem settles_arrange (hts : ∀ t ∈ ts, t.Known) (hw : Waits waiting) :
    Settles (arrange waiting ts) (unmatched? (openings waiting) ts) := by
  induction ts generalizing waiting with
  | nil => exact settles_drain waiting
  | cons t rest ih =>
    have ht := hts t List.mem_cons_self
    have hrest : ∀ {waiting}, Waits waiting →
        Settles (arrange waiting rest) (unmatched? (openings waiting) rest) :=
      ih fun u hu => hts u (List.mem_cons_of_mem t hu)
    unfold arrange
    split
    · rename_i hkind
      rw [unmatched?_operand (by rw [hkind]; rfl)]
      exact (hrest hw).map
    · rename_i hkind
      rw [unmatched?_operand (by rw [hkind]; rfl)]
      exact (hrest hw).map
    · rename_i hkind
      rw [unmatched?_opening hkind, ← openings_opening hkind]
      exact hrest (hw.cons (Or.inl hkind))
    · rename_i hkind
      cases hopened : openings waiting with
      | nil =>
        rw [unmatched?_closing_nil hkind, closeGroup_of_openings_nil t.position hopened]
        rfl
      | cons place outer =>
        obtain ⟨released, left, hclose, rfl⟩ := closeGroup_of_openings_cons t.position hopened
        obtain ⟨opening, rfl, _⟩ := closeGroup_eq_ok hclose
        rw [unmatched?_closing_cons hkind, hclose]
        exact (hrest hw.right.tail).map
    · rename_i hliteral hepsilon hopening hclosing
      have hoperand := Kind.isOperand_eq_false hliteral hepsilon
      have hk := ht.precedence?_isSome hoperand hopening hclosing
      obtain ⟨⟨released, left⟩, hrelease⟩ := exists_release hk hw
      obtain ⟨rfl, hreleased⟩ := release_eq_ok hrelease
      have hne : ∀ u ∈ released, u.kind ≠ .opening := fun u hu =>
        Kind.ne_opening_of_precedence? (hreleased u hu)
      rw [unmatched?_other hopening hclosing, hrelease, openings_append_of_ne hne,
        ← openings_other hopening]
      exact (hrest (hw.right.cons (Or.inr hk))).map

/-- Reordering writes no token that the joined list does not have. -/
theorem mem_joined_of_ofPattern {pattern : String} {output : List Token}
    (h : ofPattern pattern = .ok output) :
    ∃ joined, Token.joinedOfPattern pattern = .ok joined ∧ ∀ t ∈ output, t ∈ joined := by
  obtain ⟨joined, hjoined, harranged⟩ := bind_eq_ok.mp h
  have hderived := arranged_of_ofTokens harranged
  exact ⟨joined, hjoined, fun t ht => (hderived.mem_of_mem ht).resolve_left List.not_mem_nil⟩

/-- Known tokens stay so in reverse Polish order. -/
theorem known_of_ofPattern {pattern : String} {output : List Token}
    (h : ofPattern pattern = .ok output) : ∀ t ∈ output, t.Known := by
  obtain ⟨joined, hjoined, hmem⟩ := mem_joined_of_ofPattern h
  exact fun t ht => Token.known_of_joinedOfPattern hjoined t (hmem t ht)

/-- Each token of a pattern has a position in it. -/
theorem placed_of_ofPattern {pattern : String} {output : List Token}
    (h : ofPattern pattern = .ok output) :
    ∀ t ∈ output, ∃ n : Nat, n < pattern.toList.length ∧ t.position = some (n : Int) := by
  obtain ⟨joined, hjoined, hmem⟩ := mem_joined_of_ofPattern h
  have hplaced : ∀ t ∈ joined, ∃ n : Nat, n < pattern.toList.length ∧
      t.position = some (n : Int) :=
    Token.forall_of_joinedOfPattern hjoined (fun c n hn => ⟨n, hn, Token.position_ofPlain c n⟩)
      (fun c n hn => ⟨n, hn, Token.position_ofEscaped c n⟩) fun _ ht => ht
  exact fun t ht => hplaced t (hmem t ht)

end ReversePolish

/-! ## Assembling -/

/-- **Known tokens that are not assembled are malformed**, at one of them or as a whole. -/
theorem Drafting.malformed_of_assemble {output : List Token} (h : ∀ t ∈ output, t.Known)
    {fault : Fault} (hfault : (assemble output).result = .error fault) :
    ∃ cause position, fault = .pattern ⟨cause, position⟩ ∧ cause.isMalformed = true ∧
      (position = none ∨ ∃ t ∈ output, position = t.position) := by
  cases hr : ReversePolish.regex? output with
  | some r =>
    obtain ⟨A, hA, _⟩ := assemble_spec hr
    rw [hA] at hfault
    cases hfault
  | none =>
    obtain ⟨fault', hfault', hcause⟩ := assemble_fault hr
    obtain rfl : fault = fault' := Except.error.inj (hfault.symm.trans hfault')
    rcases hcause with ⟨t, ht, hblamed⟩ | ⟨found, rfl⟩
    · obtain ⟨cause, rfl, hcause⟩ := (h t ht).malformed hblamed
      exact ⟨cause, t.position, rfl, hcause, Or.inr ⟨t, ht, rfl⟩⟩
    · exact ⟨_, none, rfl, rfl, Or.inl rfl⟩

end RegexStepper

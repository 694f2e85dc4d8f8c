import Mathlib.Data.List.Basic
import RegexStepper.Proofs.ViablePrefix

/-!
# The alphabet of a pattern

The letters of an expression are the symbols that occur in what it matches
(`Regex.mem_letters_iff`): since every expression matches something (`Regex.exists_matches`), none
of them stands in a part of it that cannot be used. An automaton that realizes the expression has
these symbols on its transitions and no others (`Automaton.Realizes.mem_alphabet_iff`), and in the
meaning of a pattern they are the texts of its literals (`Means.mem_letters_iff`).

Headline: **`compiled_alphabet_exact`**: the alphabet of a compiled automaton lists, by code point,
the literals of the pattern, which are the characters of the texts it accepts.
-/

namespace RegexStepper

namespace Regex

variable {r : Regex} {s : String} {w : List String}

/-- Only letters of an expression occur in what it matches. -/
theorem mem_letters_of_matches (h : r.Matches w) (hs : s ∈ w) : s ∈ r.letters := by
  induction h with
  | epsilon | starNone | optionalNone => exact absurd hs List.not_mem_nil
  | symbol => exact hs
  | concat _ _ ih₁ ih₂ => exact List.mem_append.mpr ((List.mem_append.mp hs).imp ih₁ ih₂)
  | unionLeft _ ih => exact List.mem_append_left _ (ih hs)
  | unionRight _ ih => exact List.mem_append_right _ (ih hs)
  | starMore _ _ ih₁ ih₂ | plus _ _ ih₁ ih₂ => exact (List.mem_append.mp hs).elim ih₁ ih₂
  | optionalSome _ ih => exact ih hs

/-- One repetition is a number of repetitions. -/
theorem Matches.once (h : r.Matches w) : (star r).Matches w :=
  List.append_nil w ▸ .starMore h .starNone

/-- **Every expression matches something.** -/
theorem exists_matches (r : Regex) : ∃ w, r.Matches w := by
  induction r with
  | epsilon => exact ⟨[], .epsilon⟩
  | symbol s => exact ⟨[s], .symbol s⟩
  | concat r₁ r₂ ih₁ ih₂ =>
    obtain ⟨v, hv⟩ := ih₁
    obtain ⟨w, hw⟩ := ih₂
    exact ⟨v ++ w, .concat hv hw⟩
  | union r₁ r₂ ih₁ _ => exact ih₁.imp fun _ => .unionLeft
  | star r _ => exact ⟨[], .starNone⟩
  | plus r ih =>
    obtain ⟨w, hw⟩ := ih
    exact ⟨w ++ [], .plus hw .starNone⟩
  | optional r _ => exact ⟨[], .optionalNone⟩

/-- **Every letter is of use**: it occurs in something that the expression matches. -/
theorem exists_matches_of_mem_letters (h : s ∈ r.letters) : ∃ w, r.Matches w ∧ s ∈ w := by
  induction r with
  | epsilon => exact absurd h List.not_mem_nil
  | symbol letter => exact ⟨[letter], .symbol letter, h⟩
  | concat r₁ r₂ ih₁ ih₂ =>
    -- what the other part matches stands beside it
    rcases List.mem_append.mp h with h | h
    · obtain ⟨v, hv, hs⟩ := ih₁ h
      obtain ⟨w, hw⟩ := r₂.exists_matches
      exact ⟨v ++ w, .concat hv hw, List.mem_append_left _ hs⟩
    · obtain ⟨v, hv⟩ := r₁.exists_matches
      obtain ⟨w, hw, hs⟩ := ih₂ h
      exact ⟨v ++ w, .concat hv hw, List.mem_append_right _ hs⟩
  | union r₁ r₂ ih₁ ih₂ =>
    rcases List.mem_append.mp h with h | h
    · exact (ih₁ h).imp fun _ => And.imp_left .unionLeft
    · exact (ih₂ h).imp fun _ => And.imp_left .unionRight
  | star r ih => exact (ih h).imp fun _ => And.imp_left .once
  | plus r ih =>
    obtain ⟨w, hw, hs⟩ := ih h
    exact ⟨w ++ [], .plus hw .starNone, List.mem_append_left _ hs⟩
  | optional r ih => exact (ih h).imp fun _ => And.imp_left .optionalSome

/-- The letters of an expression are the symbols in what it matches. -/
theorem mem_letters_iff : s ∈ r.letters ↔ ∃ w, r.Matches w ∧ s ∈ w :=
  ⟨exists_matches_of_mem_letters, fun ⟨_, hw, hs⟩ => mem_letters_of_matches hw hs⟩

end Regex

/-! ## Letters and literals -/

/-- The text of a literal of a valid tree is a symbol in the tree's meaning. -/
theorem Tree.mem_letters_of_literal {tree : Tree} (h : tree.Valid) {t : Token} {s : String}
    (ht : t ∈ tree.spelling) (hkind : t.kind = .literal) (hvalue : t.value = some s) :
    s ∈ tree.regex.letters := by
  induction tree with
  | operand u =>
    obtain rfl := List.mem_singleton.mp ht
    rw [regex, if_pos hkind, hvalue]
    exact List.mem_cons_self
  | group opening body closing ih =>
    obtain ⟨hopening, hclosing, hbody⟩ := h
    rcases List.mem_append.mp ht with ht | ht
    · rcases List.mem_cons.mp ht with rfl | ht
      · cases hkind.symm.trans hopening
      · exact ih hbody ht
    · obtain rfl := List.mem_singleton.mp ht
      cases hkind.symm.trans hclosing
  | quantified body operator ih =>
    obtain ⟨hoperator, _, hbody⟩ := h
    rw [regex, letters_quantify]
    rcases List.mem_append.mp ht with ht | ht
    · exact ih hbody ht
    · obtain rfl := List.mem_singleton.mp ht
      rw [hkind] at hoperator
      cases hoperator
  | concat left operator right ihl ihr =>
    obtain ⟨_, _, _, hleft, hright⟩ := h
    exact List.mem_append.mpr ((List.mem_append.mp ht).imp (ihl hleft) (ihr hright))
  | union left operator right ihl ihr =>
    obtain ⟨hoperator, _, hleft, hright⟩ := h
    rcases List.mem_append.mp ht with ht | ht
    · exact List.mem_append_left _ (ihl hleft ht)
    · rcases List.mem_cons.mp ht with rfl | ht
      · cases hkind.symm.trans hoperator
      · exact List.mem_append_right _ (ihr hright ht)

/-- **The letters in the meaning of a pattern are the texts of its literals.** -/
theorem Means.mem_letters_iff {pattern : String} {r : Regex} {ts : List Token} {s : String}
    (h : Means pattern r) (hts : Token.ofPattern pattern = .ok ts) :
    s ∈ r.letters ↔ ∃ t ∈ ts, t.kind = .literal ∧ t.value = some s := by
  cases h with
  | empty =>
    cases hts
    simp [Regex.letters]
  | spelled hts' hspells =>
    obtain rfl := Except.ok.inj (hts'.symm.trans hts)
    obtain ⟨tree, hvalid, rfl, rfl⟩ := hspells
    exact ⟨Tree.exists_literal, fun ⟨t, ht, hkind, hvalue⟩ =>
      Tree.mem_letters_of_literal hvalid ht hkind hvalue⟩

/-- A pattern that has a meaning has tokens. -/
theorem Means.exists_tokens {pattern : String} {r : Regex} (h : Means pattern r) :
    ∃ ts, Token.ofPattern pattern = .ok ts := by
  cases h with
  | empty => exact ⟨[], rfl⟩
  | spelled hts _ => exact ⟨_, hts⟩

/-! ## Characters as symbols -/

/-- Different characters are different symbols. -/
theorem toString_injective : Function.Injective Char.toString :=
  fun _ _ h => String.singleton_inj.mp h

/-- Characters come in the order of their code points. -/
theorem toString_lt_iff {c d : Char} : c.toString < d.toString ↔ c.toNat < d.toNat := by
  rw [String.lt_iff, Char.toString_eq_singleton, Char.toString_eq_singleton,
    String.toList_singleton, String.toList_singleton, List.cons_lt_cons_iff]
  simp only [List.lt_irrefl, and_false, or_false]
  exact Iff.rfl

/-! ## Letters and transitions -/

namespace Automaton.Realizes

variable {A : Automaton} {r : Regex} (h : A.Realizes r)

include h

/-- A text is accepted iff the expression matches its symbols. -/
theorem accepts_iff_matches (text : List Char) :
    A.accepts text = .ok true ↔ r.Matches (Regex.symbols text) :=
  (h.accepts_true_iff text).trans (h.accepts_iff _)

/-- **The symbols on the transitions are the letters of the expression**: a letter is on the path of
something that is matched. -/
theorem mem_alphabet_iff {s : String} : s ∈ A.alphabet ↔ s ∈ r.letters := by
  rw [A.mem_alphabet]
  constructor
  · rintro ⟨t, ht, hsymbol⟩
    exact h.symbol_mem t ht s hsymbol
  · intro hs
    obtain ⟨w, hw, hsw⟩ := Regex.exists_matches_of_mem_letters hs
    obtain ⟨j, hpath, _⟩ := (h.accepts_iff w).mpr hw
    exact hpath.symbol_mem hsw

/-- If the letters are single characters, they are the characters of the texts accepted. -/
theorem toString_mem_letters_iff (hr : r.Spellable) {c : Char} :
    c.toString ∈ r.letters ↔ ∃ text, A.accepts text = .ok true ∧ c ∈ text := by
  have hmem : ∀ text : List Char, c.toString ∈ Regex.symbols text ↔ c ∈ text := fun text =>
    List.mem_map_of_injective toString_injective
  rw [Regex.mem_letters_iff]
  constructor
  · rintro ⟨w, hw, hc⟩
    obtain ⟨text, rfl⟩ := Regex.exists_symbols_eq fun s hs =>
      hr s (Regex.mem_letters_of_matches hw hs)
    exact ⟨text, (h.accepts_iff_matches text).mpr hw, (hmem text).mp hc⟩
  · rintro ⟨text, htext, hc⟩
    exact ⟨_, (h.accepts_iff_matches text).mp htext, (hmem text).mpr hc⟩

end Automaton.Realizes

/-! ## Main result -/

/-- **The alphabet is exact.** The alphabet of the automaton of a pattern is a list of characters,
strictly ascending by code point. It holds the texts of the pattern's literals and no other symbol;
its characters are those that occur in some accepted text, so that a text with any other character
is rejected. -/
theorem compiled_alphabet_exact {pattern : String} {limit : Int} {A : Automaton}
    (h : compile pattern limit = .ok A) :
    ∃ (ts : List Token) (characters : List Char), Token.ofPattern pattern = .ok ts ∧
      A.alphabet = characters.map Char.toString ∧
      characters.Pairwise (fun c d => c.toNat < d.toNat) ∧
      (∀ s, s ∈ A.alphabet ↔ ∃ t ∈ ts, t.kind = .literal ∧ t.value = some s) ∧
      (∀ c, c ∈ characters ↔ ∃ text, A.accepts text = .ok true ∧ c ∈ text) ∧
      ∀ text, (∃ c ∈ text, c ∉ characters) → A.accepts text = .ok false := by
  obtain ⟨r, hmeans, hrealizes⟩ := exists_realizes_of_compile h
  obtain ⟨ts, hts⟩ := hmeans.exists_tokens
  obtain ⟨characters, hcharacters⟩ := Regex.exists_symbols_eq fun s hs =>
    hmeans.spellable s (hrealizes.mem_alphabet_iff.mp hs)
  have hlist : A.alphabet = characters.map Char.toString := hcharacters.symm
  have husable : ∀ c, c ∈ characters ↔ ∃ text, A.accepts text = .ok true ∧ c ∈ text := by
    intro c
    rw [← hrealizes.toString_mem_letters_iff hmeans.spellable, ← hrealizes.mem_alphabet_iff, hlist,
      List.mem_map_of_injective toString_injective]
  refine ⟨ts, characters, hts, hlist, ?_, fun s => ?_, husable, ?_⟩
  · have hascending := A.alphabet_ascending
    rw [hlist, List.pairwise_map] at hascending
    exact hascending.imp toString_lt_iff.mp
  · rw [hrealizes.mem_alphabet_iff, hmeans.mem_letters_iff hts]
  · rintro text ⟨c, hc, hunknown⟩
    refine (hrealizes.accepts_false_iff text).mpr fun haccepted => ?_
    exact hunknown ((husable c).mpr ⟨text, haccepted, hc⟩)

/-- Behind a backslash an operator is a literal and `e` is not, so that a text with an `e` is
rejected. -/
theorem compiled_alphabet_exact_escapes :
    ∃ A, compile "b\\*(a|\\e)+" 100 = .ok A ∧ A.alphabet = ["*", "a", "b"] ∧
      (∃ text, A.accepts text = .ok true ∧ '*' ∈ text) ∧ A.accepts ['b', '*', 'e'] = .ok false := by
  obtain ⟨A, hA, halphabet⟩ := map_eq_ok.mp (eq_ok_of_toOption (by decide +kernel :
    (Automaton.alphabet <$> compile "b\\*(a|\\e)+" 100).toOption = some ["*", "a", "b"]))
  obtain ⟨_, characters, _, hlist, _, _, husable, hrejected⟩ := compiled_alphabet_exact hA
  obtain rfl : characters = ['*', 'a', 'b'] :=
    List.map_injective_iff.mpr toString_injective (hlist.symm.trans halphabet)
  exact ⟨A, hA, halphabet, (husable '*').mp (by decide), hrejected _ ⟨'e', by decide, by decide⟩⟩

end RegexStepper

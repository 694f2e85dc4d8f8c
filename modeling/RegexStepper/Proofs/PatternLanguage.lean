import RegexStepper.Compile
import RegexStepper.Proofs.Grammar.Recovery
import RegexStepper.Proofs.Thompson.Finish

/-!
# The language of a pattern

`Means pattern r`: the grammar gives the pattern the meaning `r`. A pattern has at most one meaning
(`Means.unique`), and a pattern that is short enough compiles iff it has one; its automaton then
realizes the meaning (`exists_realizes_of_compile`).

Headlines:
* **`compile_succeeds_iff`**: the patterns that compile are those that the grammar derives, and none
  of them has a gap;
* **`compiled_accepts_iff`**: the compiled automaton accepts the texts that the pattern means.
-/

namespace RegexStepper

open Recovery

variable {pattern : String} {limit : Int} {A : Automaton} {ts : List Token} {r r' : Regex}

/-! ## Meaning -/

/-- The grammar gives the pattern the meaning `r`. -/
inductive Means : String → Regex → Prop where
  /-- The empty pattern matches the empty text. -/
  | empty : Means "" .epsilon
  | spelled {pattern : String} {ts : List Token} {r : Regex} : Token.ofPattern pattern = .ok ts →
    Tree.Spells ts r → Means pattern r

/-- The tokens of the empty pattern spell nothing. -/
theorem not_spells_nil : ¬ Tree.Spells [] r := by
  rintro ⟨tree, _, hspelling, _⟩
  exact tree.spelling_ne_nil hspelling

theorem exists_means_iff : (∃ r, Means pattern r) ↔
    pattern = "" ∨ ∃ ts, Token.ofPattern pattern = .ok ts ∧ ∃ r, Tree.Spells ts r := by
  constructor
  · rintro ⟨r, hmeans⟩
    cases hmeans with
    | empty => exact Or.inl rfl
    | spelled hts hspells => exact Or.inr ⟨_, hts, r, hspells⟩
  · rintro (rfl | ⟨ts, hts, r, hspells⟩)
    · exact ⟨_, .empty⟩
    · exact ⟨r, .spelled hts hspells⟩

/-- **The grammar is not ambiguous**: all trees of a token list mean the same. -/
theorem spells_unique (h : Tree.Spells ts r) (h' : Tree.Spells ts r') : r = r' := by
  obtain ⟨output, houtput, hr⟩ := Tree.ofTokens_of_spells h
  obtain ⟨output', houtput', hr'⟩ := Tree.ofTokens_of_spells h'
  obtain rfl : output = output' := Except.ok.inj (houtput.symm.trans houtput')
  exact Option.some.inj (hr.symm.trans hr')

theorem Means.unique (h : Means pattern r) (h' : Means pattern r') : r = r' := by
  cases h with
  | empty =>
    cases h' with
    | empty => rfl
    | spelled hts hspells =>
      cases hts
      exact absurd hspells not_spells_nil
  | spelled hts hspells =>
    cases h' with
    | empty =>
      cases hts
      exact absurd hspells not_spells_nil
    | spelled hts' hspells' =>
      obtain rfl := Except.ok.inj (hts.symm.trans hts')
      exact spells_unique hspells hspells'

/-! ## Compilation -/

theorem compile_empty (h : ((0 : Nat) : Int) ≤ limit) :
    compile "" limit = Drafting.assembleEmpty.result :=
  (if_neg (Int.not_lt.mpr h)).trans (if_pos rfl)

/-- A pattern that is neither empty nor too long is lexed, reordered and assembled. -/
theorem compile_eq (hne : pattern ≠ "") (hlength : pattern.length ≤ limit) :
    compile pattern limit =
      ReversePolish.ofPattern pattern >>= fun output => (Drafting.assemble output).result := by
  have hempty : ¬ pattern.isEmpty = true := fun h => hne (String.isEmpty_iff.mp h)
  unfold compile
  rw [if_neg (Int.not_lt.mpr hlength), if_neg hempty]

/-- **What has a meaning compiles**, to an automaton that realizes it. -/
theorem Means.compile (h : Means pattern r) (hlength : pattern.length ≤ limit) :
    ∃ A, compile pattern limit = .ok A ∧ A.Realizes r := by
  cases h with
  | empty =>
    rw [compile_empty hlength]
    exact Drafting.assembleEmpty_spec
  | @spelled _ ts _ hts hspells =>
    have hne : pattern ≠ "" := by
      rintro rfl
      cases hts
      exact not_spells_nil hspells
    obtain ⟨output, houtput, hr⟩ := Tree.ofTokens_of_spells hspells
    obtain ⟨A, hA, hdepicts⟩ := Drafting.assemble_spec hr
    refine ⟨A, ?_, hdepicts.realizes⟩
    rw [compile_eq hne hlength]
    unfold ReversePolish.ofPattern Token.joinedOfPattern
    rw [hts]
    exact bind_eq_ok.mpr ⟨output, houtput, hA⟩

theorem length_le_of_compile (h : compile pattern limit = .ok A) : pattern.length ≤ limit := by
  by_cases hlt : limit < pattern.length
  · unfold compile at h
    rw [if_pos hlt] at h
    cases h
  · exact Int.not_lt.mp hlt

/-- **What compiles, if it is not empty, is drawn**: its automaton is the draft of its meaning. -/
theorem exists_depicts_of_compile (h : compile pattern limit = .ok A) (hne : pattern ≠ "") :
    ∃ r, Means pattern r ∧ A.Depicts r := by
  rw [compile_eq hne (length_le_of_compile h)] at h
  obtain ⟨output, houtput, hassemble⟩ := bind_eq_ok.mp h
  obtain ⟨joined, hjoined, hreordered⟩ := bind_eq_ok.mp houtput
  obtain ⟨ts, hts, rfl⟩ := map_eq_ok.mp hjoined
  cases hr : ReversePolish.regex? output with
  | some r =>
    obtain ⟨A', hA', hdepicts⟩ := Drafting.assemble_spec hr
    obtain rfl : A = A' := Except.ok.inj (hassemble.symm.trans hA')
    have hspells := spells_of_ofTokens (Token.written_of_lexFrom hts) hreordered hr
    exact ⟨r, .spelled hts hspells, hdepicts⟩
  | none =>
    obtain ⟨fault, hfault, _⟩ := Drafting.assemble_fault hr
    rw [hassemble] at hfault
    cases hfault

/-- **What compiles has a meaning.** -/
theorem means_of_compile (h : compile pattern limit = .ok A) : ∃ r, Means pattern r := by
  by_cases hne : pattern = ""
  · subst hne
    exact ⟨_, .empty⟩
  · obtain ⟨r, hmeans, _⟩ := exists_depicts_of_compile h hne
    exact ⟨r, hmeans⟩

/-- The automaton of a pattern realizes its meaning. -/
theorem exists_realizes_of_compile (h : compile pattern limit = .ok A) :
    ∃ r, Means pattern r ∧ A.Realizes r := by
  obtain ⟨r, hmeans⟩ := means_of_compile h
  obtain ⟨A', hA', hrealizes⟩ := hmeans.compile (length_le_of_compile h)
  obtain rfl : A = A' := Except.ok.inj (h.symm.trans hA')
  exact ⟨r, hmeans, hrealizes⟩

/-- The tokens of a pattern that has a meaning have no gap. -/
theorem Means.gapless (h : Means pattern r) (hts : Token.ofPattern pattern = .ok ts) :
    Gapless ts := by
  cases h with
  | empty =>
    cases hts
    exact gapless_nil
  | spelled hts' hspells =>
    obtain rfl := Except.ok.inj (hts'.symm.trans hts)
    exact gapless_of_spells (Token.written_of_lexFrom hts) hspells

/-! ## Main results -/

/-- **The compiler accepts exactly its grammar.** A pattern compiles iff it is short enough and is
empty or derived by the grammar; and no pattern that compiles has an empty group, an empty
alternative or a quantifier without operand. -/
theorem compile_succeeds_iff (pattern : String) (limit : Int) :
    ((∃ A, compile pattern limit = .ok A) ↔ pattern.length ≤ limit ∧
      (pattern = "" ∨ ∃ ts, Token.ofPattern pattern = .ok ts ∧ ∃ r, Tree.Spells ts r)) ∧
    ∀ A ts, compile pattern limit = .ok A → Token.ofPattern pattern = .ok ts → Gapless ts := by
  refine ⟨?_, fun A ts hA hts => ?_⟩
  · rw [← exists_means_iff]
    constructor
    · rintro ⟨A, hA⟩
      exact ⟨length_le_of_compile hA, means_of_compile hA⟩
    · rintro ⟨hlength, r, hmeans⟩
      obtain ⟨A, hA, _⟩ := hmeans.compile hlength
      exact ⟨A, hA⟩
  · obtain ⟨r, hmeans⟩ := means_of_compile hA
    exact hmeans.gapless hts

/-- A choice between two groups, each of one symbol, as long as the limit allows. -/
theorem compile_succeeds_choice :
    ∃ A ts, compile "(a)|(b)" 7 = .ok A ∧ Token.ofPattern "(a)|(b)" = .ok ts ∧ Gapless ts := by
  have hok : (compile "(a)|(b)" 7).toOption.isSome = true := by decide +kernel
  cases hA : compile "(a)|(b)" 7 with
  | error fault =>
    rw [hA] at hok
    cases hok
  | ok A =>
    have hts : Token.ofPattern "(a)|(b)" = .ok _ := rfl
    exact ⟨A, _, rfl, hts, (compile_succeeds_iff "(a)|(b)" 7).2 A _ hA hts⟩

/-- **The compiled automaton accepts the language of the pattern**, whatever the limit. -/
theorem compiled_accepts_iff (h : compile pattern limit = .ok A) (text : List Char) :
    ∃ verdict, A.accepts text = .ok verdict ∧
      (verdict = true ↔ ∃ r, Means pattern r ∧ r.Matches (Regex.symbols text)) := by
  obtain ⟨r, hmeans, hrealizes⟩ := exists_realizes_of_compile h
  obtain ⟨verdict, hverdict, haccepts⟩ :=
    hrealizes.indexed.accepts_spec hrealizes.start_hasId text
  refine ⟨verdict, hverdict, haccepts.trans ((hrealizes.accepts_iff _).trans ?_)⟩
  constructor
  · intro hmatches
    exact ⟨r, hmeans, hmatches⟩
  · rintro ⟨r', hmeans', hmatches⟩
    rwa [hmeans.unique hmeans']

/-- A choice repeated in a group, then one more symbol. -/
theorem compiled_accepts_repeated_choice :
    ∃ A, compile "(a|b)*c" 100 = .ok A ∧ A.accepts ['b', 'a', 'c'] = .ok true ∧
      ∃ r, Means "(a|b)*c" r ∧ r.Matches ["b", "a", "c"] := by
  have hrun : (compile "(a|b)*c" 100 >>= fun A => A.accepts ['b', 'a', 'c']).toOption =
      some true := by decide +kernel
  cases hA : compile "(a|b)*c" 100 with
  | error fault =>
    rw [hA] at hrun
    cases hrun
  | ok A =>
    obtain ⟨verdict, hverdict, hmeans⟩ := compiled_accepts_iff hA ['b', 'a', 'c']
    rw [hA] at hrun
    obtain rfl : verdict = true := by
      rw [bind_eq_ok.mpr ⟨A, rfl, hverdict⟩] at hrun
      exact Option.some.inj hrun
    exact ⟨A, rfl, hverdict, hmeans.mp rfl⟩

end RegexStepper

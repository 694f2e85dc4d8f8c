import RegexStepper.Proofs.Thompson.Reuse

/-!
# A token is applied as a whole or not at all

A draft that orders have led to, failed ones too, is sound, so that the ends of every fragment that
a token takes are states of it: nothing can go wrong between the first change that a token makes and
the last one. `Draft.Atomic` says so of one token.

A list is applied token by token, up to the first one that is refused. What the tokens before it
have built stays: the list as a whole is not atomic, and `Draft.Sound.run_assemble_error_iff` tells
all the ways in which assembling it fails.

Headline: **`application_atomic`**.
-/

namespace RegexStepper

open Drafting

variable {d d' : Draft} {t : Token} {ts : List Token} {fault : Fault}

/-! ## One token -/

/-- Printing a token looks at no flag. -/
theorem Token.text_ne_noSuchFlag (i : Int) : t.text ≠ .error (.noSuchFlag i) := by
  obtain ⟨kind, value, position⟩ := t
  cases kind <;> cases value <;> exact fun h => nomatch h

/-- No token is blamed for a flag that is not there. -/
theorem Token.Blamed.ne_noSuchFlag (h : t.Blamed fault) (i : Int) : fault ≠ .noSuchFlag i := by
  rintro rfl
  cases h with
  | unprintable htext => exact Token.text_ne_noSuchFlag i htext

namespace Drafting

variable {before : List Token} {d₁ : Draft}

/-- A list is refused where one of its tokens is. -/
theorem run_forM_fault (hbefore : (forM before apply).run d = .ok () d₁)
    (ht : (apply t).run d₁ = .error fault d') (rest : List Token) :
    (forM (before ++ t :: rest) apply).run d = .error fault d' := by
  rw [List.forM_append, EStateM.run_bind, hbefore]
  simp only [List.forM_cons, EStateM.run_bind, ht]

/-- A state is added and finished with. -/
theorem run_assembleEmpty (d : Draft) : ∃ A d', assembleEmpty.run d = .ok A d' := by
  have hlt : d.accepting.size < (d.accepting.push true).size := by
    rw [Array.size_push]
    exact Nat.lt_succ_self _
  obtain ⟨A, hA, _⟩ :=
    @Draft.finish_spec { d with accepting := d.accepting.push true } d.accepting.size _ hlt hlt
  refine ⟨A, { d with accepting := d.accepting.push true }, ?_⟩
  unfold assembleEmpty
  simp only [newState, EStateM.run_bind, EStateM.run_modifyGet, EStateM.run_get, hA]
  rfl

end Drafting

namespace Draft

/-- The token `t` is applied to the draft `d` as a whole or not at all. -/
structure Atomic (d : Draft) (t : Token) : Prop where
  /-- It fails if its kind has no place in reverse Polish order or takes more fragments than there
  are, and only then. -/
  fails_iff : (∃ fault d', (apply t).run d = .error fault d') ↔ d.Refuses t
  /-- Failing leaves the flags, the transitions and the fragments as they were. -/
  unchanged : ∀ fault d', (apply t).run d = .error fault d' → d' = d
  /-- Else one fragment comes in the place of those that it takes. -/
  height : ∀ d', (apply t).run d = .ok () d' →
    ∃ n, t.kind.arity? = some n ∧ (d'.fragments.length : Int) = d.fragments.length + 1 - n

namespace Sound

theorem atomic (h : d.Sound) (t : Token) : d.Atomic t := by
  rcases h.apply_cases t with ⟨hrefuses, fault, hrun, _⟩ | ⟨hfits, n, d', hn, hrun, _, hlength⟩
  · refine ⟨iff_of_true ⟨fault, d, hrun⟩ hrefuses, fun fault' d' hrun' => ?_, fun d' hrun' => ?_⟩
    · cases hrun.symm.trans hrun'
      rfl
    · cases hrun.symm.trans hrun'
  · refine ⟨iff_of_false ?_ hfits, fun fault' d' hrun' => ?_, fun d₂ hrun' => ⟨n, hn, ?_⟩⟩
    · rintro ⟨fault', d₂, hrun'⟩
      cases hrun.symm.trans hrun'
    · cases hrun.symm.trans hrun'
    · cases hrun.symm.trans hrun'
      omega

/-! ## A list of tokens -/

/-- A sound draft takes a whole list, or the list up to a token that it refuses. -/
theorem run_forM_cases (h : d.Sound) (ts : List Token) :
    (∃ d', (forM ts apply).run d = .ok () d' ∧ d'.Sound) ∨
      ∃ before t rest fault d', ts = before ++ t :: rest ∧
        (forM before apply).run d = .ok () d' ∧ (apply t).run d' = .error fault d' := by
  induction ts generalizing d with
  | nil => exact Or.inl ⟨d, rfl, h⟩
  | cons t ts ih =>
    rcases h.apply_cases t with ⟨_, fault, hrun, _⟩ | ⟨_, n, d₁, _, hrun, h₁, _⟩
    · exact Or.inr ⟨[], t, ts, fault, d, rfl, rfl, hrun⟩
    · have hcons : ∀ us, (forM (t :: us) apply).run d = (forM us apply).run d₁ := by
        intro us
        rw [List.forM_cons, EStateM.run_bind, hrun]
      rcases ih h₁ with ⟨d', hts, hd'⟩ | ⟨before, u, rest, fault, d', rfl, hbefore, hu⟩
      · exact Or.inl ⟨d', (hcons ts).trans hts, hd'⟩
      · exact Or.inr ⟨t :: before, u, rest, fault, d', rfl, (hcons before).trans hbefore, hu⟩

/-- One fragment that is left is finished. -/
theorem run_assemble_of_single (h : d'.Sound) (hrun : (forM ts apply).run d = .ok () d')
    (hlength : d'.fragments.length = 1) : ∃ A d₂, (assemble ts).run d = .ok A d₂ := by
  obtain ⟨f, hf⟩ := List.length_eq_one_iff.mp hlength
  have hholds : d'.Holds f := h.holds f (hf ▸ List.mem_cons_self)
  obtain ⟨hstart, hfinal⟩ := holds_complete.mpr hholds
  obtain ⟨A, hA, _⟩ := finish_spec hstart hfinal
  refine ⟨A, d'.complete f, ?_⟩
  rw [run_assemble hrun hf hholds, hA]
  rfl

/-- **Assembling fails in two ways.** A token is refused, and the draft is left as the tokens before
it have left it; or all are applied and do not leave one fragment. -/
theorem run_assemble_error_iff (h : d.Sound) : (assemble ts).run d = .error fault d' ↔
    (∃ before t rest, ts = before ++ t :: rest ∧ (forM before apply).run d = .ok () d' ∧
      (apply t).run d' = .error fault d') ∨
    ((forM ts apply).run d = .ok () d' ∧ d'.fragments.length ≠ 1 ∧
      fault = .pattern ⟨.notOneFragment d'.fragments.length, none⟩) := by
  constructor
  · intro hrun
    rcases h.run_forM_cases ts with
      ⟨d₁, hts, h₁⟩ | ⟨before, t, rest, fault', d₁, rfl, hbefore, ht⟩
    · by_cases hlength : d₁.fragments.length = 1
      · obtain ⟨A, d₂, hok⟩ := h₁.run_assemble_of_single hts hlength
        cases hok.symm.trans hrun
      · cases (run_assemble_leftover hts hlength).symm.trans hrun
        exact Or.inr ⟨hts, hlength, rfl⟩
    · cases (run_assemble_fault (run_forM_fault hbefore ht rest)).symm.trans hrun
      exact Or.inl ⟨before, t, rest, rfl, hbefore, ht⟩
  · rintro (⟨before, t, rest, rfl, hbefore, ht⟩ | ⟨hts, hlength, rfl⟩)
    · exact run_assemble_fault (run_forM_fault hbefore ht rest)
    · exact run_assemble_leftover hts hlength

/-! ## Flags -/

/-- A token that is refused is to blame. -/
theorem blamed_of_apply (h : d.Sound) (hrun : (apply t).run d = .error fault d') :
    t.Blamed fault := by
  rcases h.apply_cases t with ⟨_, fault', hfault, hblamed⟩ | ⟨_, n, d₁, _, hok, _⟩
  · cases hfault.symm.trans hrun
    exact hblamed
  · cases hok.symm.trans hrun

/-- **No order sets a flag that is not there.** -/
theorem ne_noSuchFlag (h : d.Sound) {o : Order} (hrun : o.perform.run d = .error fault d')
    (i : Int) : fault ≠ .noSuchFlag i := by
  cases o with
  | apply t => exact (h.blamed_of_apply hrun).ne_noSuchFlag i
  | assemble ts =>
    rcases h.run_assemble_error_iff.mp (run_of_discard_error hrun) with
      ⟨before, t, rest, _, hbefore, ht⟩ | ⟨_, _, rfl⟩
    · have h' := keeps_forM keeps_apply before d h
      rw [stateAfter_of_ok hbefore] at h'
      exact (h'.blamed_of_apply ht).ne_noSuchFlag i
    · exact fun heq => nomatch heq
  | assembleEmpty =>
    obtain ⟨A, d₁, hok⟩ := run_assembleEmpty d
    cases (run_discard_of_ok hok).symm.trans hrun

end Sound

end Draft

/-! ## Main result -/

namespace Drafting

/-- **A token is applied as a whole or not at all**, to any draft that orders have led to, failed
ones too. So assembling a list fails at a token that is refused, and leaves the draft as the tokens
before it have left it; or, where none is refused, because they do not leave one fragment. No order
sets a flag that is not there. -/
theorem application_atomic (orders : List Order) :
    (∀ t, (Draft.empty.after orders).Atomic t) ∧
    (∀ ts fault d', (assemble ts).run (Draft.empty.after orders) = .error fault d' ↔
      (∃ before t rest, ts = before ++ t :: rest ∧
        (forM before apply).run (Draft.empty.after orders) = .ok () d' ∧
        (apply t).run d' = .error fault d') ∨
      ((forM ts apply).run (Draft.empty.after orders) = .ok () d' ∧ d'.fragments.length ≠ 1 ∧
        fault = .pattern ⟨.notOneFragment d'.fragments.length, none⟩)) ∧
    ∀ (o : Order) fault d', o.perform.run (Draft.empty.after orders) = .error fault d' →
      ∀ i, fault ≠ .noSuchFlag i := by
  have hsound := Draft.sound_empty.after orders
  exact ⟨hsound.atomic, fun ts fault d' => hsound.run_assemble_error_iff,
    fun o fault d' => hsound.ne_noSuchFlag⟩

/-- A list that fails at its second token leaves its first one beside the fragment of an earlier
order. -/
def interrupted : List Order :=
  [.apply ⟨.literal, some "a", some 0⟩,
   .assemble [⟨.literal, some "b", some 0⟩, ⟨.closing, some ")", some 1⟩]]

/-- Of two fragments a choice is made before the next token lacks an operand. -/
theorem application_atomic_interrupted :
    (Draft.empty.after interrupted).fragments = [⟨2, 3⟩, ⟨0, 1⟩] ∧
    (Draft.empty.after interrupted).Refuses ⟨.other "fence", none, none⟩ ∧
    (∃ fault, (apply ⟨.other "fence", none, none⟩).run (Draft.empty.after interrupted) =
      .error fault (Draft.empty.after interrupted)) ∧
    ∃ fault d', (assemble [⟨.union, none, none⟩, ⟨.concat, none, none⟩]).run
        (Draft.empty.after interrupted) = .error fault d' ∧
      d'.fragments = [⟨4, 5⟩] ∧ ∀ i, fault ≠ .noSuchFlag i := by
  obtain ⟨hatomic, hassemble, hflags⟩ := application_atomic interrupted
  have hfragments : (Draft.empty.after interrupted).fragments = [⟨2, 3⟩, ⟨0, 1⟩] := by
    decide +kernel
  have hrefuses : (Draft.empty.after interrupted).Refuses ⟨.other "fence", none, none⟩ :=
    Or.inl rfl
  refine ⟨hfragments, hrefuses, ?_, ?_⟩
  · obtain ⟨fault, d', hrun⟩ := (hatomic _).fails_iff.mpr hrefuses
    obtain rfl := (hatomic _).unchanged fault d' hrun
    exact ⟨fault, hrun⟩
  · obtain ⟨d', hunion, hone⟩ : ∃ d', (forM [⟨.union, none, none⟩] apply).run
        (Draft.empty.after interrupted) = .ok () d' ∧ d'.fragments = [⟨4, 5⟩] := ⟨_, rfl, rfl⟩
    have hlacks : d'.Refuses ⟨.concat, none, none⟩ := Or.inr ⟨2, rfl, by rw [hone]; decide⟩
    obtain ⟨fault, hconcat, _⟩ := run_apply_fault (Draft.refuses_iff.mp hlacks)
    have hrun := (hassemble _ fault d').mpr (Or.inl ⟨_, _, [], rfl, hunion, hconcat⟩)
    exact ⟨fault, d', hrun, hone, hflags (.assemble _) _ _ (run_discard_of_error hrun)⟩

end Drafting

end RegexStepper

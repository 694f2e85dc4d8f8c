import Mathlib.Logic.Equiv.Basic
import RegexStepper.Proofs.Thompson.Finish

/-!
# Finishing gives new numbers and nothing else

The numbers of the start state and of state 0 are exchanged in two ways: the flags are swapped in
their array, and the numbers on transitions and of the final state are mapped one by one. Both are
the same permutation of the states (`Draft.renumber_eq_swap`), whichever of the two numbers and of
the two ends fall together, and the automaton is the draft under it (`Draft.Image`).

Headline: **`finished_renumbered`**, which also tells what such an automaton accepts.
-/

namespace RegexStepper

namespace Draft

variable {d : Draft} {start final : Nat} {A : Automaton}

/-- The numbers are mapped by the permutation that exchanges 0 and the start. -/
theorem renumber_eq_swap (start : Nat) (i : Int) :
    renumber start i = Equiv.swap 0 (start : Int) i := by
  rw [Equiv.swap_comm, Equiv.swap_apply_def]
  rfl

/-- The automaton `A` is the draft with the number `σ i` in the place of `i`. -/
structure Image (d : Draft) (σ : Equiv.Perm Int) (A : Automaton) : Prop where
  /-- There are as many states. -/
  size_eq : A.states.size = d.accepting.size
  /-- They are numbered by their places. -/
  id_eq : ∀ i (_ : i < A.states.size), A.states[i].id = i
  /-- The new numbers are those of the states, as the old ones are. -/
  hasId_iff : ∀ i, A.HasId (σ i) ↔ A.HasId i
  /-- A state has kept its flag. -/
  state_eq : ∀ i (_ : i < d.accepting.size), A.state (σ i) = .ok ⟨σ i, d.accepting[i]⟩
  /-- A transition leads between the new numbers, in its old place and on its symbol. -/
  transitions_eq : A.transitions = d.transitions.toList.map (·.rename σ)

/-- A draft that is finished is the draft with two numbers exchanged. -/
theorem Finished.image (h : d.Finished start A) : d.Image (Equiv.swap 0 (start : Int)) A := by
  have hrenumber : renumber start = Equiv.swap 0 (start : Int) := funext (renumber_eq_swap start)
  refine ⟨h.size_eq, h.id_eq, fun i => ?_, fun i hi => ?_, ?_⟩
  · rw [← hrenumber, h.hasId_renumber]
  · rw [← hrenumber, h.state_eq i hi]
  · rw [← hrenumber, h.transitions_eq]

/-- Its final state is that of the draft, under its new number. -/
theorem Finished.final_eq (h : d.Finished start A) (hA : d.finish start final = .ok A)
    (hfinal : final < d.accepting.size) :
    A.final = ⟨renumber start final, d.accepting[final]⟩ :=
  Except.ok.inj ((ends_of_finish hA).2.symm.trans (h.state_eq final hfinal))

/-- So is its start, whose new number is 0. -/
theorem Finished.start_state_eq (h : d.Finished start A) (hA : d.finish start final = .ok A)
    (hstart : start < d.accepting.size) : A.start = ⟨0, d.accepting[start]⟩ := by
  have hstate := h.state_eq start hstart
  rw [renumber_start] at hstate
  exact Except.ok.inj ((ends_of_finish hA).1.symm.trans hstate)

/-! ## Main result -/

/-- **Finishing renumbers and does nothing else.** For any two states of a draft that no transition
leads out of, be they one or two and state 0 among them or not, finishing answers the image of the
draft under the exchange of 0 and the start, with the images of the two as its ends. So it accepts
the texts that a path of the draft spells from the start to a state with its flag set. That the
draft is as before needs no argument: finishing is a function of it. -/
theorem finished_renumbered (hstart : start < d.accepting.size)
    (hfinal : final < d.accepting.size)
    (htargets : ∀ t ∈ d.transitions.toList, 0 ≤ t.target ∧ t.target < d.accepting.size) :
    ∃ A, (do attempt ((← get).finish start final) : Drafting Automaton).run d = .ok A d ∧
      d.Image (Equiv.swap 0 (start : Int)) A ∧
      A.start = ⟨0, d.accepting[start]⟩ ∧
      A.final = ⟨Equiv.swap 0 (start : Int) final, d.accepting[final]⟩ ∧
      ∀ text, ∃ verdict, A.accepts text = .ok verdict ∧ (verdict = true ↔
        ∃ n : Nat, d.accepting[n]? = some true ∧
          Path d.transitions.toList start (Regex.symbols text) n) := by
  obtain ⟨A, hA, hfinished⟩ := finish_spec hstart hfinal
  refine ⟨A, ?_, hfinished.image, hfinished.start_state_eq hA hstart, ?_,
    hfinished.accepts_iff htargets⟩
  · rw [EStateM.run_bind, EStateM.run_get]
    simp only [hA]
    rfl
  · rw [← renumber_eq_swap]
    exact hfinished.final_eq hA hfinal

/-- Three states in a circle; the fragment goes from the last one to the first, which is flagged. -/
def circle : Draft where
  accepting := #[true, false, false]
  transitions := #[⟨2, 1, some "a"⟩, ⟨1, 0, none⟩, ⟨0, 2, none⟩]
  fragments := [⟨2, 0⟩]

/-- The flag goes to the last place along with the number of the final state. -/
theorem finished_renumbered_circle :
    (2 < circle.accepting.size ∧ 0 < circle.accepting.size ∧
      ∀ t ∈ circle.transitions.toList, 0 ≤ t.target ∧ t.target < circle.accepting.size) ∧
    ∃ A, (do attempt ((← get).finish 2 0) : Drafting Automaton).run circle = .ok A circle ∧
      A.start = ⟨0, false⟩ ∧ A.final = ⟨2, true⟩ ∧
      A.transitions = [⟨0, 1, some "a"⟩, ⟨1, 2, none⟩, ⟨2, 0, none⟩] ∧
      A.accepts ['a', 'a'] = .ok true := by
  have htargets : ∀ t ∈ circle.transitions.toList,
      0 ≤ t.target ∧ t.target < circle.accepting.size := by decide
  have hlast : 2 < circle.accepting.size := by decide
  have hfirst : 0 < circle.accepting.size := by decide
  obtain ⟨A, hA, himage, hstart, hfinal, haccepts⟩ := finished_renumbered hlast hfirst htargets
  have hpath : Path circle.transitions.toList 2 ["a", "a"] 0 := by
    have hround : Path circle.transitions.toList 2 ["a"] 0 :=
      .symbol (j := 1) (by decide) (.ofEpsilon (by decide))
    exact hround.append (.epsilon (j := 2) (by decide) hround)
  obtain ⟨verdict, hverdict, hiff⟩ := haccepts ['a', 'a']
  obtain rfl : verdict = true := hiff.mpr ⟨0, by decide, hpath⟩
  refine ⟨⟨hlast, hfirst, htargets⟩, A, hA, hstart, ?_, ?_, hverdict⟩
  · rw [hfinal, ← renumber_eq_swap]
    rfl
  · rw [himage.transitions_eq]
    decide

end Draft

end RegexStepper

import RegexStepper.Proofs.PatternLanguage
import RegexStepper.Proofs.Thompson.Shape

/-!
# What a compiled automaton looks like

The automaton of a pattern is that of an expression with two numbers exchanged. It inherits from it

* its shape (`Automaton.WellShaped`): dense ids, one accepting state, and at most two transitions
  out of a state, one if it is on a symbol (**`compiled_wellShaped`**);
* that nothing in it is useless (`Automaton.Trim`): every state and every transition lies on a path
  from the start to the final state (**`compiled_trim`**).

The empty pattern is the exception to the first: its one state is both the start and the final one.
-/

namespace RegexStepper

namespace Automaton

variable {A : Automaton} {r : Regex}

/-! ## Drawn automata -/

/-- The ids of the states are their places, from the start state 0 on; one other state accepts, and
it is the final one; the transitions lead between states and have the shape. -/
structure WellShaped (A : Automaton) : Prop extends
    Shaped A.transitions A.start.id A.final.id where
  id_eq : ∀ i (_ : i < A.states.size), A.states[i].id = i
  start_mem : A.start ∈ A.states
  start_id : A.start.id = 0
  final_mem : A.final ∈ A.states
  start_ne_final : A.start.id ≠ A.final.id
  accepting_iff : ∀ s ∈ A.states, s.accepting = true ↔ s = A.final
  hasId : ∀ t ∈ A.transitions, A.HasId t.source ∧ A.HasId t.target

/-- Every state and every transition lies on a path from the start to the final state. -/
structure Trim (A : Automaton) : Prop where
  reachable : ∀ s ∈ A.states, ∃ w, Path A.transitions A.start.id w s.id
  live : ∀ s ∈ A.states, ∃ w, Path A.transitions s.id w A.final.id
  on_path : ∀ t ∈ A.transitions, ∃ u v,
    Path A.transitions A.start.id u t.source ∧ Path A.transitions t.target v A.final.id

namespace Depicts

/-- Transitions lead between states. -/
theorem hasId_of_mem (h : A.Depicts r) {t : Transition} (ht : t ∈ A.transitions) :
    A.HasId t.source ∧ A.HasId t.target := by
  obtain ⟨d, hd, hA, _⟩ := h.exists_finished
  rw [hA.transitions_eq] at ht
  obtain ⟨u, hu, rfl⟩ := List.mem_map.mp ht
  obtain ⟨hsource, htarget⟩ := Regex.stayWithin_edges r 0 u (hd.transitions_eq ▸ hu)
  exact ⟨hd.hasId_renumber hA hsource, hd.hasId_renumber hA htarget⟩

/-- The final state accepts, and it alone. -/
theorem accepting_iff (h : A.Depicts r) {s : State} (hs : s ∈ A.states) :
    s.accepting = true ↔ s = A.final := by
  obtain ⟨d, hd, hA, _, hfinal, hid⟩ := h.exists_finished
  obtain ⟨hi, hstate⟩ := (hd.indexed hA).state_of_mem hs
  have haccepting : A.Accepting s.id ↔ s.id = A.final.id := by
    rw [hid]
    exact hd.accepting_iff hA hi
  constructor
  · intro htrue
    rw [haccepting.mp ⟨s, hstate, htrue⟩] at hstate
    exact Except.ok.inj (hstate.symm.trans hfinal)
  · rintro rfl
    obtain ⟨s, hs, htrue⟩ := haccepting.mpr rfl
    rwa [Except.ok.inj (hs.symm.trans hstate)] at htrue

/-- **A drawn automaton is well shaped.** -/
theorem wellShaped (h : A.Depicts r) : A.WellShaped := by
  obtain ⟨d, hd, hA, hstart, hfinal, hid⟩ := h.exists_finished
  have hspans := Regex.spans_fragment r 0
  have hstart_id := hA.start_eq_renumber ▸ hd.hasId_renumber hA hspans.start_within
  have hfinal_id := hid ▸ hd.hasId_renumber hA hspans.final_within
  have hshaped := (Regex.shaped_edges r 0).rename (Draft.renumber_renumber (r.fragment 0).start)
  rw [← hd.transitions_eq, ← hA.transitions_eq, ← hA.start_eq_renumber, ← hid] at hshaped
  refine ⟨hshaped, hA.id_eq, mem_states_of_state hstart_id hstart, hA.start_eq,
    mem_states_of_state hfinal_id hfinal, fun heq => ?_, fun s => h.accepting_iff,
    fun t => h.hasId_of_mem⟩
  rw [hA.start_eq_renumber, hid] at heq
  have hsame := Function.Involutive.injective (Draft.renumber_renumber _) heq
  exact hspans.start_ne_final (Int.ofNat_inj.mp hsame)

/-- Each number that is there lies between the start and the final state. -/
theorem threaded (h : A.Depicts r) {i : Int} (hi : A.HasId i) :
    (∃ u, Path A.transitions A.start.id u i) ∧ ∃ v, Path A.transitions i v A.final.id := by
  obtain ⟨d, hd, hA, _, _, hid⟩ := h.exists_finished
  obtain ⟨⟨u, hu⟩, ⟨v, hv⟩⟩ := Regex.threaded_edges r 0 _ ((hd.hasId_iff hA).mp hi)
  rw [← hd.path_iff hA, Draft.renumber_renumber] at hu hv
  exact ⟨⟨u, hA.start_eq_renumber ▸ hu⟩, ⟨v, hid ▸ hv⟩⟩

/-- **Nothing in a drawn automaton is useless.** -/
theorem trim (h : A.Depicts r) : A.Trim := by
  have hstate := fun {s : State} (hs : s ∈ A.states) =>
    h.threaded (h.realizes.indexed.state_of_mem hs).1
  refine ⟨fun s hs => (hstate hs).1, fun s hs => (hstate hs).2, fun t ht => ?_⟩
  obtain ⟨hsource, htarget⟩ := h.hasId_of_mem ht
  obtain ⟨u, hu⟩ := (h.threaded hsource).1
  obtain ⟨v, hv⟩ := (h.threaded htarget).2
  exact ⟨u, v, hu, hv⟩

end Depicts

/-- The automaton of no token has one state, both its start and its final one. -/
theorem trim_of_assembleEmpty (h : Drafting.assembleEmpty.result = .ok A) : A.Trim := by
  cases h
  refine ⟨fun s hs => ?_, fun s hs => ?_, fun t ht => absurd ht List.not_mem_nil⟩
  · obtain rfl := Array.mem_singleton.mp hs
    exact ⟨[], .nil _⟩
  · obtain rfl := Array.mem_singleton.mp hs
    exact ⟨[], .nil _⟩

end Automaton

/-! ## Compiled automata -/

variable {pattern : String} {limit : Int} {A : Automaton}

/-- **The shape of compiled automata.** -/
theorem compiled_wellShaped (h : compile pattern limit = .ok A) (hne : pattern ≠ "") :
    A.WellShaped := by
  obtain ⟨r, _, hdepicts⟩ := exists_depicts_of_compile h hne
  exact hdepicts.wellShaped

/-- A choice repeated between two symbols. -/
theorem compiled_wellShaped_repeated_choice :
    "a(b|c)*d" ≠ "" ∧ ∃ A, compile "a(b|c)*d" 100 = .ok A ∧ A.WellShaped := by
  have hne : "a(b|c)*d" ≠ "" := by decide
  have hok : (compile "a(b|c)*d" 100).toOption.isSome = true := by decide +kernel
  obtain ⟨A, hA⟩ := exists_eq_ok hok
  exact ⟨hne, A, hA, compiled_wellShaped hA hne⟩

/-- **No useless states**, and no useless transitions. -/
theorem compiled_trim (h : compile pattern limit = .ok A) : A.Trim := by
  by_cases hne : pattern = ""
  · subst hne
    rw [compile_empty (length_le_of_compile h)] at h
    exact Automaton.trim_of_assembleEmpty h
  · obtain ⟨r, _, hdepicts⟩ := exists_depicts_of_compile h hne
    exact hdepicts.trim

/-- Each quantifier once, over a choice. -/
theorem compiled_trim_quantifiers :
    ∃ A, compile "(a?|b+)*" 100 = .ok A ∧ A.Trim := by
  have hok : (compile "(a?|b+)*" 100).toOption.isSome = true := by decide +kernel
  obtain ⟨A, hA⟩ := exists_eq_ok hok
  exact ⟨A, hA, compiled_trim hA⟩

end RegexStepper

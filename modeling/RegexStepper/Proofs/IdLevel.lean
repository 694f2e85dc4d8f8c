import Mathlib.Data.List.Sort
import RegexStepper.Proofs.PathSemantics

/-!
# Sets of states and sets of ids

An automaton moves sets of its own states, found by place, along an index of its transitions. A
plain list of transitions moves sets of ids, without states, along a table that it makes for
itself: `Reach.closureOf`, `Reach.stepOf`, and `Reach.walkFromOf` character by character.

Both ascend and hold the ends of the same paths, so on an `Indexed` automaton they are the same ids
(`Indexed.close_ids`, `Indexed.step_ids`), and a text is walked in lockstep (`Indexed.walkFrom_ids`).

Headline: **`id_level_agrees`**: the automaton never fails where its list of transitions does not,
and answers its own states under the ids of the list.
-/

namespace RegexStepper

namespace Reach

variable {ts : List Transition} {active : List Int} {symbol : Symbol}

/-- The ids after each further character of a text, by a list of transitions alone. -/
def walkFromOf (ts : List Transition) (active : List Int) : List Char → List (List Int)
  | [] => []
  | c :: rest =>
    let next := (stepOf ts active (Symbol.ofChar c)).toList
    next :: walkFromOf ts next rest

/-- The ids before any character of a text, then those after each. -/
def walkOf (ts : List Transition) (start : Int) (text : List Char) : List (List Int) :=
  let first := (closureOf ts [start]).toList
  first :: walkFromOf ts first text

/-- **Stepping ids** takes one transition on the symbol and closes. -/
theorem mem_stepOf_iff {j : Int} :
    j ∈ stepOf ts active symbol ↔ ∃ i ∈ active, ∃ k, ⟨i, k, symbol⟩ ∈ ts ∧ Path ts k [] j := by
  unfold stepOf
  rw [mem_closureOf_iff]
  constructor
  · rintro ⟨k, hk, hp⟩
    obtain ⟨i, hi, ht⟩ := mem_targetsOf.mp hk
    exact ⟨i, hi, k, ht, hp⟩
  · rintro ⟨i, hi, k, ht, hp⟩
    exact ⟨k, mem_targetsOf.mpr ⟨i, hi, ht⟩, hp⟩

end Reach

/-- The ids of a set of states are those of a set of ids with the same members: both ascend. -/
theorem ActiveSet.ids_eq_toList {active : ActiveSet} {ids : IdSet}
    (h : ∀ j, j ∈ active.ids ↔ j ∈ ids) : active.ids = ids.toList := by
  have hordered : ids.toList.Pairwise fun i j => compare i j = .lt := Std.TreeSet.ordered_toList
  have hascending : ids.toList.Pairwise (· < ·) :=
    hordered.imp fun hij => compareOfLessAndEq_eq_lt.mp hij
  refine active.ids_ascending.eq_of_mem_iff hascending fun j => ?_
  rw [Std.TreeSet.mem_toList, h]

namespace Automaton

variable {A : Automaton}

namespace Indexed

/-- **Closing states closes their ids.** -/
theorem close_ids (h : A.Indexed) (states : List State) (hids : ∀ s ∈ states, A.HasId s.id) :
    ∃ active, A.close states = .ok active ∧ A.Owns active ∧
      active.ids = (Reach.closureOf A.transitions (states.map State.id)).toList := by
  obtain ⟨active, hactive, hown, hmem⟩ := h.close_spec states hids
  refine ⟨active, hactive, hown, ActiveSet.ids_eq_toList fun j => ?_⟩
  rw [hmem, Reach.mem_closureOf_iff]
  simp only [List.mem_map, exists_exists_and_eq_and]

/-- **Stepping states steps their ids**, in whatever order these are listed. -/
theorem step_ids (h : A.Indexed) (states : List State) (symbol : Symbol) {ids : List Int}
    (hids : ∀ i, i ∈ ids ↔ i ∈ states.map State.id) :
    ∃ active, A.step states symbol = .ok active ∧ A.Owns active ∧
      active.ids = (Reach.stepOf A.transitions ids symbol).toList := by
  obtain ⟨active, hactive, hown, hmem⟩ := h.step_spec states symbol
  refine ⟨active, hactive, hown, ActiveSet.ids_eq_toList fun j => ?_⟩
  rw [hmem, Reach.mem_stepOf_iff]
  simp only [hids, List.mem_map, exists_exists_and_eq_and]

/-- **Walking states walks their ids.** -/
theorem walkFrom_ids (h : A.Indexed) (text : List Char) (active : ActiveSet) {ids : List Int}
    (hids : ∀ i, i ∈ ids ↔ i ∈ active.ids) :
    ∃ sets, A.walkFrom active text = .ok sets ∧ (∀ next ∈ sets, A.Owns next) ∧
      sets.map ActiveSet.ids = Reach.walkFromOf A.transitions ids text := by
  induction text generalizing active ids with
  | nil => exact ⟨[], rfl, by simp, rfl⟩
  | cons c rest ih =>
    obtain ⟨next, hnext, hown, hstep⟩ := h.step_ids active.states (Symbol.ofChar c) hids
    obtain ⟨sets, hsets, howns, hwalk⟩ := ih next fun i => by rw [hstep]
    refine ⟨next :: sets, ?_, ?_, ?_⟩
    · simp only [walkFrom, hnext, hsets, bind, Except.bind, pure, Except.pure]
    · simpa using ⟨hown, howns⟩
    · rw [List.map_cons, hwalk, hstep, Reach.walkFromOf]

end Indexed

/-- **The two levels agree.** On an automaton whose ids are places and whose transitions lead to
ids that are there, moving any states that are there, whatever their flags, answers the automaton's
own states under the ids that the list of transitions answers: closing, stepping on any symbol or
on none, and walking a text from these states or from the start. -/
theorem id_level_agrees (h : A.Indexed) (states : List State)
    (hids : ∀ s ∈ states, A.HasId s.id) :
    (∃ active, A.close states = .ok active ∧ A.Owns active ∧
      active.ids = (Reach.closureOf A.transitions (states.map State.id)).toList) ∧
    (∀ symbol, ∃ active, A.step states symbol = .ok active ∧ A.Owns active ∧
      active.ids = (Reach.stepOf A.transitions (states.map State.id) symbol).toList) ∧
    (∀ text, ∃ sets, A.walkFrom (.ofList states) text = .ok sets ∧ (∀ next ∈ sets, A.Owns next) ∧
      sets.map ActiveSet.ids = Reach.walkFromOf A.transitions (states.map State.id) text) ∧
    (A.HasId A.start.id → ∀ text, ∃ sets, A.walk text = .ok sets ∧ (∀ next ∈ sets, A.Owns next) ∧
      sets.map ActiveSet.ids = Reach.walkOf A.transitions A.start.id text) := by
  refine ⟨h.close_ids states hids, fun symbol => h.step_ids states symbol fun i => Iff.rfl,
    fun text => h.walkFrom_ids text _ fun i => ActiveSet.mem_ids_ofList.symm, ?_⟩
  intro hstart text
  have hfirst : ∀ s ∈ [A.start], A.HasId s.id := by simpa using hstart
  obtain ⟨first, hclose, hown, hclosed⟩ := h.close_ids [A.start] hfirst
  obtain ⟨sets, hsets, howns, hwalk⟩ := h.walkFrom_ids text first fun i => by rw [hclosed]
  refine ⟨first :: sets, ?_, ?_, ?_⟩
  · simp only [walk, initial, hclose, hsets, bind, Except.bind, pure, Except.pure]
  · simpa using ⟨hown, howns⟩
  · rw [List.map_cons, hwalk, hclosed, Reach.walkOf]
    rfl

/-- Two states on a circle that consumes nothing, the transition back stored twice, and a third one
that is reached on the empty symbol. -/
def circle : Automaton where
  start := ⟨0, false⟩
  final := ⟨2, true⟩
  states := #[⟨0, false⟩, ⟨1, false⟩, ⟨2, true⟩]
  transitions := [⟨0, 1, none⟩, ⟨1, 0, none⟩, ⟨1, 0, none⟩, ⟨1, 2, some ""⟩, ⟨2, 0, some "a"⟩]

/-- Only the second state of the circle has a transition on the empty symbol. Both levels take it
to the third one, and the flags of the states that were given are forgotten. -/
theorem id_level_agrees_circle :
    (Reach.stepOf circle.transitions [0, 1] (some "")).toList = [2] ∧
    ∃ active, circle.step [⟨0, true⟩, ⟨1, true⟩] (some "") = .ok active ∧ circle.Owns active ∧
      active.ids = (Reach.stepOf circle.transitions [0, 1] (some "")).toList := by
  have hindexed : circle.Indexed := by
    refine ⟨by decide, fun t ht => ?_⟩
    have htargets : ∀ t ∈ circle.transitions, 0 ≤ t.target ∧ t.target < circle.states.size := by
      decide
    exact htargets t ht
  have hids : ∀ s ∈ [State.mk 0 true, State.mk 1 true], circle.HasId s.id := by
    have hplaces : ∀ s ∈ [State.mk 0 true, State.mk 1 true],
        0 ≤ s.id ∧ s.id < circle.states.size := by decide
    exact hplaces
  exact ⟨by decide, (id_level_agrees hindexed _ hids).2.1 (some "")⟩

end Automaton

end RegexStepper

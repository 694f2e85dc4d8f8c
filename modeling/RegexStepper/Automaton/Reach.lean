import RegexStepper.Automaton.OutEdges
import Std.Data.TreeSet.Lemmas

/-!
# Reaching ids along transitions

`Reach.closure` follows the transitions that consume nothing, from a list of ids to every id they
lead to. It keeps the ids seen so far and a list of those whose transitions are still to be
followed; an id enters both at the same time, once, so `seeds.length + edges.count` rounds are
enough. It looks transitions up in the index of an automaton. `Reach.closureOf` has only a list of
transitions and makes a table of those that consume nothing; `Reach.stepOf` takes the ones on a
symbol first.

Ids are any integers here: no state has to stand behind them.
-/

namespace RegexStepper

/-- A finite set of ids, in ascending order. -/
abbrev IdSet := Std.TreeSet Int

namespace Reach

/-- The ids seen and those still to be followed, after `ids` have been met: a new one enters
both. -/
def meet (seen : IdSet) (pending : List Int) : List Int → IdSet × List Int
  | [] => (seen, pending)
  | i :: ids =>
    if seen.contains i then meet seen pending ids
    else meet (seen.insert i) (i :: pending) ids

/-- The ids seen after `rounds` ids have been followed, or all that are pending. -/
def explore (next : Int → List Int) : Nat → IdSet → List Int → IdSet
  | 0, seen, _ => seen
  | _ + 1, seen, [] => seen
  | rounds + 1, seen, i :: pending =>
    let met := meet seen pending (next i)
    explore next rounds met.1 met.2

/-- The ids one transition away from `id` that consumes nothing. -/
def epsilonTargets (edges : OutEdges) (id : Int) : List Int :=
  (edges.leaving id none).map (·.target)

/-- The ids reached from `seeds` by transitions that consume nothing. -/
def closure (edges : OutEdges) (seeds : List Int) : IdSet :=
  let met := meet ∅ [] seeds
  explore (epsilonTargets edges) (seeds.length + edges.count) met.1 met.2

/-- Adds the target of a transition that consumes nothing before those of the same source. -/
def addTarget (table : Std.TreeMap Int (List Int)) (t : Transition) :
    Std.TreeMap Int (List Int) :=
  if t.isEpsilon then table.insert t.source (t.target :: table.getD t.source []) else table

/-- The targets of the transitions of a list that consume nothing, by source. -/
def epsilonTable (transitions : List Transition) : Std.TreeMap Int (List Int) :=
  transitions.foldr (fun t table => addTarget table t) ∅

/-- The ids reached from `seeds` by transitions of a list that consume nothing. -/
def closureOf (transitions : List Transition) (seeds : List Int) : IdSet :=
  let table := epsilonTable transitions
  let met := meet ∅ [] seeds
  explore (fun id => table.getD id []) (seeds.length + transitions.length) met.1 met.2

/-- The targets of the transitions on `symbol` from an id of `active`. -/
def targetsOf (transitions : List Transition) (active : List Int) (symbol : Symbol) : List Int :=
  let sources : IdSet := Std.TreeSet.ofList active
  (transitions.filter fun t => t.symbol == symbol && sources.contains t.source).map (·.target)

/-- One step of a list of transitions: take those on `symbol`, then close. -/
def stepOf (transitions : List Transition) (active : List Int) (symbol : Symbol) : IdSet :=
  closureOf transitions (targetsOf transitions active symbol)

/-! ## One round -/

theorem mem_meet_fst {seen : IdSet} {pending ids : List Int} {j : Int} :
    j ∈ (meet seen pending ids).1 ↔ j ∈ seen ∨ j ∈ ids := by
  induction ids generalizing seen pending with
  | nil => simp [meet]
  | cons i ids ih =>
    unfold meet
    by_cases h : seen.contains i = true
    · rw [if_pos h, ih]
      have hi : i ∈ seen := h
      constructor
      · rintro (hj | hj)
        · exact Or.inl hj
        · exact Or.inr (List.mem_cons_of_mem i hj)
      · rintro (hj | hj)
        · exact Or.inl hj
        · rcases List.mem_cons.1 hj with rfl | hj
          · exact Or.inl hi
          · exact Or.inr hj
    · rw [if_neg h, ih, Std.TreeSet.mem_insert, List.mem_cons, Std.compare_eq_iff_eq]
      constructor
      · rintro ((rfl | hj) | hj)
        · exact Or.inr (Or.inl rfl)
        · exact Or.inl hj
        · exact Or.inr (Or.inr hj)
      · rintro (hj | rfl | hj)
        · exact Or.inl (Or.inr hj)
        · exact Or.inl (Or.inl rfl)
        · exact Or.inr hj

/-- What is pending after a round was pending or has just been seen. -/
theorem mem_meet_snd {seen : IdSet} {pending ids : List Int} {j : Int}
    (h : j ∈ (meet seen pending ids).2) : j ∈ pending ∨ j ∈ ids := by
  induction ids generalizing seen pending with
  | nil => exact Or.inl h
  | cons i ids ih =>
    unfold meet at h
    split at h
    · exact (ih h).imp_right (List.mem_cons_of_mem i)
    · rcases ih h with hj | hj
      · rcases List.mem_cons.1 hj with rfl | hj
        · exact Or.inr List.mem_cons_self
        · exact Or.inl hj
      · exact Or.inr (List.mem_cons_of_mem i hj)

theorem mem_epsilonTargets {ts : List Transition} {i j : Int} :
    j ∈ epsilonTargets (OutEdges.ofList ts) i ↔ ⟨i, j, none⟩ ∈ ts := by
  unfold epsilonTargets
  simp only [List.mem_map, OutEdges.mem_leaving_ofList]
  constructor
  · rintro ⟨⟨s, t, x⟩, ⟨hmem, hs, hx⟩, ht⟩
    subst hs hx ht
    exact hmem
  · intro h
    exact ⟨⟨i, j, none⟩, ⟨h, rfl, rfl⟩, rfl⟩

theorem mem_addTarget {table : Std.TreeMap Int (List Int)} {t : Transition} {i j : Int} :
    j ∈ (addTarget table t).getD i [] ↔ ⟨i, j, none⟩ = t ∨ j ∈ table.getD i [] := by
  obtain ⟨source, target, _ | s⟩ := t
  · by_cases h : source = i
    · subst h
      simp [addTarget, Transition.isEpsilon]
    · have hc : compare source i ≠ .eq := fun e => h (Std.LawfulEqCmp.eq_of_compare e)
      simp [addTarget, Transition.isEpsilon, Std.TreeMap.getD_insert, hc, Ne.symm h]
  · simp [addTarget, Transition.isEpsilon]

theorem mem_epsilonTable {ts : List Transition} {i j : Int} :
    j ∈ (epsilonTable ts).getD i [] ↔ ⟨i, j, none⟩ ∈ ts := by
  induction ts with
  | nil => simp [epsilonTable]
  | cons t rest ih =>
    have hcons : epsilonTable (t :: rest) = addTarget (epsilonTable rest) t := rfl
    rw [hcons, mem_addTarget, ih, List.mem_cons]

theorem mem_targetsOf {ts : List Transition} {active : List Int} {symbol : Symbol} {j : Int} :
    j ∈ targetsOf ts active symbol ↔ ∃ i ∈ active, ⟨i, j, symbol⟩ ∈ ts := by
  unfold targetsOf
  simp only [List.mem_map, List.mem_filter, Bool.and_eq_true, beq_iff_eq,
    Std.TreeSet.contains_ofList, List.contains_iff_mem]
  constructor
  · rintro ⟨⟨s, t, x⟩, ⟨hmem, hx, hs⟩, ht⟩
    subst hx ht
    exact ⟨s, hs, hmem⟩
  · rintro ⟨i, hi, hmem⟩
    exact ⟨⟨i, j, symbol⟩, ⟨hmem, rfl, hi⟩, rfl⟩

end Reach

end RegexStepper

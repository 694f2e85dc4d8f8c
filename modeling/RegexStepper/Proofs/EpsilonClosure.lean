import Mathlib.Logic.Relation
import Mathlib.Order.Bounds.Defs
import RegexStepper.Proofs.IdLevel

/-!
# Closing ids by a worklist

The ids that a closure has still to follow are a worklist. `Round` is one turn of its loop: an id is
taken off, whichever it is, and the ids that it leads to are met. `Rounds` counts the turns of a run,
which is over when nothing is pending.

Two things hold of any turn: `Explored`, by which the ids seen are exact once nothing is pending, and
that it uses up more of the `budget` than it adds (`Round.budget_lt`). So a run ends after as many
rounds as there are seeds and transitions at most, and in whatever order it takes the ids, it ends
with the same ones.

What a closure and a step answer is the image of their ids under a relation between single ids;
monotony and distribution over unions follow from this alone (`additive_of_image`).

Headline: **`closure_least_fixed_point`**.
-/

namespace RegexStepper

namespace Reach

variable {ts : List Transition} {seeds pending : List Int} {next : Int → List Int}
  {seen : IdSet} {s t : IdSet × List Int} {i j : Int} {n : Nat}

/-! ## The loop -/

/-- One turn of the loop, from the ids seen and those pending to the same after it. Any of the
pending ids may be the one that is followed. -/
inductive Round (next : Int → List Int) : IdSet × List Int → IdSet × List Int → Prop where
  | follow {seen : IdSet} {pending rest : List Int} {i : Int} : pending.Perm (i :: rest) →
    Round next (seen, pending) (meet seen rest (next i))

/-- A run of `n` turns. -/
inductive Rounds (next : Int → List Int) : Nat → IdSet × List Int → IdSet × List Int → Prop where
  | none {s : IdSet × List Int} : Rounds next 0 s s
  | more {n : Nat} {s t u : IdSet × List Int} : Round next s t → Rounds next n t u →
    Rounds next (n + 1) s u

/-- Before the first turn each of the seeds is seen and pending. -/
def start (seeds : List Int) : IdSet × List Int :=
  meet ∅ [] seeds

/-- The ids one transition away that consumes nothing, in the order of the list. -/
def targets (ts : List Transition) (i : Int) : List Int :=
  (epsilonTable ts).getD i []

/-- How many turns there can still be: one for each pending id, and one for each transition to an id
not yet seen. -/
def budget (ts : List Transition) (s : IdSet × List Int) : Nat :=
  s.2.length + unseen ts s.1

theorem follows_targets : Follows ts (targets ts) := fun _ _ => mem_epsilonTable

theorem Explored.perm {pending' : List Int} (h : Explored ts seeds seen pending)
    (hperm : pending.Perm pending') : Explored ts seeds seen pending' :=
  ⟨h.sound, h.seeded, fun j hj => h.seen_of_pending j (hperm.mem_iff.mpr hj),
    fun j hj hn => h.followed j hj fun hp => hn (hperm.mem_iff.mp hp)⟩

theorem Round.explored (hnext : Follows ts next) (h : Round next s t)
    (hs : Explored ts seeds s.1 s.2) : Explored ts seeds t.1 t.2 := by
  cases h with
  | follow hperm => exact (hs.perm hperm).follow hnext

/-- **Each turn uses up some of the budget.** -/
theorem Round.budget_lt (hnext : Follows ts next) (h : Round next s t) :
    budget ts t < budget ts s := by
  cases h with
  | @follow seen pending rest i hperm =>
    have htargets : ∀ j ∈ next i, ∃ t ∈ ts, t.target = j := fun j hj =>
      ⟨_, (hnext i j).mp hj, rfl⟩
    have hmeet := @meet_budget ts seen rest _ htargets
    have hlength : pending.length = rest.length + 1 := hperm.length_eq
    simp only [budget]
    omega

theorem Rounds.explored (hnext : Follows ts next) (h : Rounds next n s t)
    (hs : Explored ts seeds s.1 s.2) : Explored ts seeds t.1 t.2 := by
  induction h with
  | none => exact hs
  | more hround _ ih => exact ih (hround.explored hnext hs)

/-- **A run has no more turns than its budget.** -/
theorem Rounds.add_budget_le (hnext : Follows ts next) (h : Rounds next n s t) :
    n + budget ts t ≤ budget ts s := by
  induction h with
  | none => exact Nat.le_of_eq (Nat.zero_add _)
  | more hround _ ih =>
    have := hround.budget_lt hnext
    omega

/-- Exploring with rounds enough is a run that leaves nothing pending. -/
theorem exists_rounds_explore (hnext : Follows ts next) {rounds : Nat}
    (hb : budget ts (seen, pending) ≤ rounds) :
    ∃ n, Rounds next n (seen, pending) (explore next rounds seen pending, []) := by
  induction rounds generalizing seen pending with
  | zero =>
    cases pending with
    | nil => exact ⟨0, .none⟩
    | cons i rest => simp only [budget, List.length_cons] at hb; omega
  | succ rounds ih =>
    cases pending with
    | nil => exact ⟨0, .none⟩
    | cons i rest =>
      have hround : Round next (seen, i :: rest) (meet seen rest (next i)) := .follow (.refl _)
      have hlt := hround.budget_lt hnext
      have hle : budget ts (meet seen rest (next i)) ≤ rounds := by omega
      obtain ⟨n, hrun⟩ := ih hle
      exact ⟨n + 1, .more hround hrun⟩

/-! ## What is reached -/

/-- A transition that consumes nothing leads from `i` to `j`. -/
def Leads (ts : List Transition) (i j : Int) : Prop :=
  ⟨i, j, none⟩ ∈ ts

/-- A path over no symbol is any number of such transitions. -/
theorem path_nil_iff : Path ts i [] j ↔ Relation.ReflTransGen (Leads ts) i j := by
  constructor
  · intro h
    exact h.silent (fun _ _ ht hk => hk.tail ht) .refl
  · intro h
    induction h with
    | refl => exact .nil i
    | tail _ ht ih => exact ih.append (.ofEpsilon ht)

/-- The ids in a set. -/
def members (ids : IdSet) : Set Int := {i | i ∈ ids}

theorem mem_members {ids : IdSet} : i ∈ members ids ↔ i ∈ ids := Iff.rfl

theorem members_closureOf (ts : List Transition) (seeds : List Int) :
    members (closureOf ts seeds) = {j | ∃ i ∈ seeds, Relation.ReflTransGen (Leads ts) i j} := by
  ext j
  simp only [mem_members, mem_closureOf_iff, path_nil_iff, Set.mem_ofPred_eq]

/-- **A run that is over has seen the closure**, in whatever order it took the ids. -/
theorem Rounds.members_eq (h : Rounds (targets ts) n (start seeds) (seen, [])) :
    members seen = members (closureOf ts seeds) := by
  have hdone : Explored ts seeds seen [] := h.explored follows_targets explored_start
  ext j
  rw [mem_members, mem_members, mem_closureOf_iff, hdone.mem_iff]

/-- Sets of ids that hold the seeds and that no transition leaves which consumes nothing. -/
def closedSets (ts : List Transition) (seeds : List Int) : Set (Set Int) :=
  {S | (∀ i ∈ seeds, i ∈ S) ∧ ∀ i ∈ S, ∀ j, Leads ts i j → j ∈ S}

theorem isLeast_closureOf (ts : List Transition) (seeds : List Int) :
    IsLeast (closedSets ts seeds) (members (closureOf ts seeds)) := by
  rw [members_closureOf]
  refine ⟨⟨fun i hi => ⟨i, hi, .refl⟩, ?_⟩, ?_⟩
  · rintro i ⟨seed, hseed, hreach⟩ j hlead
    exact ⟨seed, hseed, hreach.tail hlead⟩
  · rintro S ⟨hseeds, hclosed⟩ j ⟨i, hi, hreach⟩
    induction hreach with
    | refl => exact hseeds i hi
    | tail _ hlead ih => exact hclosed _ ih _ hlead

/-- **Closing again adds nothing.** -/
theorem members_closureOf_closureOf (ts : List Transition) (seeds : List Int) :
    members (closureOf ts (closureOf ts seeds).toList) = members (closureOf ts seeds) := by
  refine Set.Subset.antisymm ?_ fun j hj => ?_
  · refine (isLeast_closureOf ts _).2 ⟨fun i hi => ?_, (isLeast_closureOf ts seeds).1.2⟩
    exact Std.TreeSet.mem_toList.mp hi
  · exact (isLeast_closureOf ts _).1.1 j (Std.TreeSet.mem_toList.mpr hj)

/-! ## Operations that take each id on its own -/

/-- An operation on finite sets of ids gives more for more ids, and for two sets together what it
gives for each of them. -/
structure Additive (f : List Int → IdSet) : Prop where
  mono : ∀ ids more : List Int, (∀ i ∈ ids, i ∈ more) → members (f ids) ⊆ members (f more)
  union : ∀ ids ids' both : List Int, (∀ i, i ∈ both ↔ i ∈ ids ∨ i ∈ ids') →
    members (f both) = members (f ids) ∪ members (f ids')

/-- An operation that answers an image is additive. -/
theorem additive_of_image {f : List Int → IdSet} {R : Int → Int → Prop}
    (h : ∀ ids j, j ∈ f ids ↔ ∃ i ∈ ids, R i j) : Additive f where
  mono ids more hsub j hj := by
    obtain ⟨i, hi, hij⟩ := (h ids j).mp hj
    exact (h more j).mpr ⟨i, hsub i hi, hij⟩
  union ids ids' both hboth := by
    ext j
    rw [Set.mem_union, mem_members, mem_members, mem_members, h, h, h, ← exists_or]
    refine exists_congr fun i => ?_
    rw [hboth, or_and_right]

theorem additive_closureOf (ts : List Transition) : Additive (closureOf ts) :=
  additive_of_image fun _ _ => mem_closureOf_iff

theorem additive_stepOf (ts : List Transition) (symbol : Symbol) :
    Additive (stepOf ts · symbol) :=
  additive_of_image fun _ _ => mem_stepOf_iff

/-- What is reached is a matter of which transitions and seeds there are. -/
theorem members_closureOf_congr {ts' : List Transition} {seeds' : List Int}
    (hts : ∀ t, t ∈ ts' ↔ t ∈ ts) (hseeds : ∀ i, i ∈ seeds' ↔ i ∈ seeds) :
    members (closureOf ts' seeds') = members (closureOf ts seeds) := by
  have hleads : Leads ts' = Leads ts := by
    funext i j
    exact propext (hts ⟨i, j, none⟩)
  rw [members_closureOf, members_closureOf, hleads]
  simp only [hseeds]

/-! ## Main result -/

/-- **Closing ids is the least fixed point**, for any transitions and any seeds. Whichever pending
ids it takes first, the loop ends after as many turns as there are seeds and transitions at most, and
always with the same ids; one such run is that of `closureOf`. These are the ids that the seeds reach
by any number of transitions that consume nothing, and the least set that holds the seeds and that no
such transition leaves. So closing again adds nothing, more seeds reach more, a union of seeds
reaches the union, and neither the order nor the repetition of transitions and of seeds matters.
Stepping on any symbol, or on none, also answers more for more ids and unions for unions. -/
theorem closure_least_fixed_point (ts : List Transition) (seeds : List Int) :
    ((∀ n s, Rounds (targets ts) n (start seeds) s → n ≤ seeds.length + ts.length ∧
        (s.2 = [] → members s.1 = members (closureOf ts seeds))) ∧
      ∃ n, Rounds (targets ts) n (start seeds) (closureOf ts seeds, [])) ∧
    members (closureOf ts seeds) = {j | ∃ i ∈ seeds, Relation.ReflTransGen (Leads ts) i j} ∧
    IsLeast (closedSets ts seeds) (members (closureOf ts seeds)) ∧
    members (closureOf ts (closureOf ts seeds).toList) = members (closureOf ts seeds) ∧
    Additive (closureOf ts) ∧
    (∀ ts' seeds', (∀ t, t ∈ ts' ↔ t ∈ ts) → (∀ i, i ∈ seeds' ↔ i ∈ seeds) →
      members (closureOf ts' seeds') = members (closureOf ts seeds)) ∧
    ∀ symbol, Additive (stepOf ts · symbol) := by
  have hstart : budget ts (start seeds) ≤ seeds.length + ts.length := start_budget
  refine ⟨⟨fun n s hrun => ⟨?_, ?_⟩, exists_rounds_explore follows_targets hstart⟩,
    members_closureOf ts seeds, isLeast_closureOf ts seeds, members_closureOf_closureOf ts seeds,
    additive_closureOf ts, fun _ _ => members_closureOf_congr, additive_stepOf ts⟩
  · have := hrun.add_budget_le follows_targets
    omega
  · rintro hover
    obtain ⟨seen, pending⟩ := s
    obtain rfl : pending = [] := hover
    exact hrun.members_eq

/-- Two ids in a circle that consumes nothing, one of its transitions stored twice, a third id that
only a transition leads to, and one that is reached on a symbol. -/
def loose : List Transition :=
  [⟨0, 1, none⟩, ⟨1, 0, none⟩, ⟨1, 0, none⟩, ⟨1, -7, none⟩, ⟨0, 3, some "a"⟩]

/-- The circle is left once, whether the transitions are read forwards or backwards and whether the
seed comes once or twice. -/
theorem closure_least_fixed_point_loose :
    (closureOf loose [1, 1]).toList = [-7, 0, 1] ∧
    members (closureOf loose.reverse [1]) = members (closureOf loose [1, 1]) ∧
    members (stepOf loose [0] (some "a")) ⊆ members (stepOf loose [-7, 0] (some "a")) := by
  obtain ⟨_, _, _, _, _, hcongr, hstep⟩ := closure_least_fixed_point loose [1, 1]
  refine ⟨by decide, hcongr _ _ (fun t => List.mem_reverse) (by simp), ?_⟩
  exact (hstep (some "a")).mono _ _ (by simp)

end Reach

end RegexStepper

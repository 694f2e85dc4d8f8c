import RegexStepper.Automaton.Path
import RegexStepper.Automaton.Reach

/-!
# Reaching is having a path

`mem_explore_iff`: following the transitions that consume nothing, however they are looked up
(`Follows`), meets exactly the ids at the end of a path from one of the seeds that consumes nothing.
So the rounds that a closure allows are always enough: an id is pending once, and each one that
enters is the target of a transition that none before it was (`meet_budget`). Both closures, the one
by index (`mem_closure_iff`) and the one by table (`mem_closureOf_iff`), are cases of it.
-/

namespace RegexStepper

namespace Reach

variable {ts : List Transition} {seeds : List Int} {next : Int → List Int}

/-- `next` answers the targets of the transitions that consume nothing. -/
def Follows (ts : List Transition) (next : Int → List Int) : Prop :=
  ∀ i j, j ∈ next i ↔ ⟨i, j, none⟩ ∈ ts

/-- How many transitions lead to ids not yet seen. -/
def unseen (ts : List Transition) (seen : IdSet) : Nat :=
  ts.countP fun t => !seen.contains t.target

theorem unseen_le (ts : List Transition) (seen : IdSet) : unseen ts seen ≤ ts.length :=
  List.countP_le_length

theorem contains_insert {seen : IdSet} {i j : Int} :
    (seen.insert i).contains j = (i == j || seen.contains j) := by
  rw [Std.TreeSet.contains_insert]
  congr 1
  rw [Bool.eq_iff_iff, beq_iff_eq, beq_iff_eq, Std.compare_eq_iff_eq]

/-- Seeing a new target leaves fewer transitions to unseen ids. -/
theorem unseen_insert_lt {seen : IdSet} {t : Transition} (ht : t ∈ ts)
    (hnew : seen.contains t.target = false) :
    unseen ts (seen.insert t.target) < unseen ts seen := by
  unfold unseen
  induction ts with
  | nil => exact absurd ht List.not_mem_nil
  | cons u rest ih =>
    have hle : rest.countP (fun t' => !(seen.insert t.target).contains t'.target) ≤
        rest.countP fun t' => !seen.contains t'.target := by
      refine List.countP_mono_left fun t' _ h => ?_
      rw [contains_insert] at h
      simp only [Bool.not_or, Bool.and_eq_true] at h
      exact h.2
    simp only [List.countP_cons, contains_insert] at hle ⊢
    rcases List.mem_cons.1 ht with rfl | ht
    · simp only [BEq.rfl, Bool.true_or, Bool.not_true, hnew, Bool.not_false, if_true] at hle ⊢
      simp only [Bool.false_eq_true, if_false]
      omega
    · have := ih ht
      simp only [contains_insert] at this
      by_cases hu : seen.contains u.target = true
      · simp only [hu, Bool.or_true, Bool.not_true, Bool.false_eq_true, if_false]
        omega
      · simp only [hu, Bool.or_false, Bool.not_false, if_true]
        split <;> omega

/-- A round lengthens the pending list no more than it shortens the list of unseen targets. -/
theorem meet_budget {seen : IdSet} {pending ids : List Int}
    (hids : ∀ j ∈ ids, ∃ t ∈ ts, t.target = j) :
    (meet seen pending ids).2.length + unseen ts (meet seen pending ids).1 ≤
      pending.length + unseen ts seen := by
  induction ids generalizing seen pending with
  | nil => exact Nat.le_refl _
  | cons i ids ih =>
    have hrest : ∀ j ∈ ids, ∃ t ∈ ts, t.target = j := fun j hj =>
      hids j (List.mem_cons_of_mem i hj)
    unfold meet
    split
    · exact ih hrest
    · rename_i hnew
      refine Nat.le_trans (ih hrest) ?_
      obtain ⟨t, ht, rfl⟩ := hids i List.mem_cons_self
      have := unseen_insert_lt ht (Bool.not_eq_true _ ▸ hnew)
      simp only [List.length_cons]
      omega

/-- What the first round makes pending. -/
theorem length_meet_le (seen : IdSet) (pending ids : List Int) :
    (meet seen pending ids).2.length ≤ pending.length + ids.length := by
  induction ids generalizing seen pending with
  | nil => exact Nat.le_refl _
  | cons i ids ih =>
    unfold meet
    split
    · exact Nat.le_trans (ih seen pending) (by simp only [List.length_cons]; omega)
    · exact Nat.le_trans (ih _ _) (by simp only [List.length_cons]; omega)

/-- Each id that a round meets for the first time is pending after it. -/
theorem mem_meet_snd_of_new {seen : IdSet} {pending ids : List Int} {j : Int}
    (hj : j ∈ ids) (hnew : j ∉ seen) : j ∈ (meet seen pending ids).2 := by
  have keep : ∀ (ids : List Int) (seen : IdSet) (pending : List Int) (k : Int),
      k ∈ pending → k ∈ (meet seen pending ids).2 := by
    intro ids
    induction ids with
    | nil => exact fun _ _ _ hk => hk
    | cons i ids ih =>
      intro seen pending k hk
      unfold meet
      split
      · exact ih _ _ k hk
      · exact ih _ _ k (List.mem_cons_of_mem i hk)
  induction ids generalizing seen pending with
  | nil => exact absurd hj List.not_mem_nil
  | cons i ids ih =>
    unfold meet
    split
    · rename_i hi
      rcases List.mem_cons.1 hj with rfl | hj
      · exact absurd hi hnew
      · exact ih hj hnew
    · by_cases hji : j = i
      · subst hji
        exact keep _ _ _ _ List.mem_cons_self
      · rcases List.mem_cons.1 hj with rfl | hj
        · exact absurd rfl hji
        · refine ih hj fun hm => ?_
          rw [Std.TreeSet.mem_insert, Std.compare_eq_iff_eq] at hm
          rcases hm with rfl | hm
          · exact hji rfl
          · exact hnew hm

theorem mem_meet_snd_of_mem {seen : IdSet} {pending ids : List Int} {j : Int}
    (hj : j ∈ pending) : j ∈ (meet seen pending ids).2 := by
  induction ids generalizing seen pending with
  | nil => exact hj
  | cons i ids ih =>
    unfold meet
    split
    · exact ih hj
    · exact ih (List.mem_cons_of_mem i hj)

/-- What holds between rounds: the ids seen are the ends of paths from the seeds and hold the seeds,
the pending ones are among them, and the targets from any other one are seen. -/
structure Explored (ts : List Transition) (seeds : List Int) (seen : IdSet)
    (pending : List Int) : Prop where
  sound : ∀ j ∈ seen, ∃ i ∈ seeds, Path ts i [] j
  seeded : ∀ i ∈ seeds, i ∈ seen
  seen_of_pending : ∀ j ∈ pending, j ∈ seen
  followed : ∀ j ∈ seen, j ∉ pending → ∀ k, ⟨j, k, none⟩ ∈ ts → k ∈ seen

/-- A round keeps it. -/
theorem Explored.follow {seen : IdSet} {pending : List Int} {i : Int} (hnext : Follows ts next)
    (h : Explored ts seeds seen (i :: pending)) :
    Explored ts seeds (meet seen pending (next i)).1 (meet seen pending (next i)).2 where
  sound j hj := by
    rcases mem_meet_fst.1 hj with hj | hj
    · exact h.sound j hj
    · obtain ⟨s, hs, hp⟩ := h.sound i (h.seen_of_pending i List.mem_cons_self)
      exact ⟨s, hs, hp.append (.ofEpsilon ((hnext _ _).1 hj))⟩
  seeded s hs := mem_meet_fst.2 (Or.inl (h.seeded s hs))
  seen_of_pending j hj := by
    rcases mem_meet_snd hj with hj | hj
    · exact mem_meet_fst.2 (Or.inl (h.seen_of_pending j (List.mem_cons_of_mem i hj)))
    · exact mem_meet_fst.2 (Or.inr hj)
  followed j hj hn k hk := by
    by_cases hseen : j ∈ seen
    · by_cases hji : j = i
      · subst hji
        exact mem_meet_fst.2 (Or.inr ((hnext _ _).2 hk))
      · refine mem_meet_fst.2 (Or.inl (h.followed j hseen ?_ k hk))
        intro hm
        rcases List.mem_cons.1 hm with rfl | hm
        · exact hji rfl
        · exact hn (mem_meet_snd_of_mem hm)
    · rcases mem_meet_fst.1 hj with hj | hj
      · exact absurd hj hseen
      · exact absurd (mem_meet_snd_of_new hj hseen) hn

/-- With rounds enough for what is pending and what may still become so, nothing stays pending. -/
theorem Explored.exhaust {rounds : Nat} {seen : IdSet} {pending : List Int}
    (hnext : Follows ts next) (h : Explored ts seeds seen pending)
    (hb : pending.length + unseen ts seen ≤ rounds) :
    Explored ts seeds (explore next rounds seen pending) [] := by
  induction rounds generalizing seen pending with
  | zero =>
    cases pending with
    | nil => exact h
    | cons i pending => simp only [List.length_cons] at hb; omega
  | succ rounds ih =>
    cases pending with
    | nil => exact h
    | cons i pending =>
      refine ih (h.follow hnext) ?_
      have hids : ∀ j ∈ next i, ∃ t ∈ ts, t.target = j := fun j hj => ⟨_, (hnext i j).1 hj, rfl⟩
      have := @meet_budget ts seen pending _ hids
      simp only [List.length_cons] at hb
      omega

/-- Before the first round the seeds are seen, and pending. -/
theorem explored_start : Explored ts seeds (meet ∅ [] seeds).1 (meet ∅ [] seeds).2 := by
  refine ⟨fun j hj => ?_, fun i hi => mem_meet_fst.2 (Or.inr hi), fun j hj => ?_,
    fun j hj hn => ?_⟩
  · rcases mem_meet_fst.1 hj with hj | hj
    · exact absurd hj Std.TreeSet.not_mem_emptyc
    · exact ⟨j, hj, .nil j⟩
  · rcases mem_meet_snd hj with hj | hj
    · exact absurd hj List.not_mem_nil
    · exact mem_meet_fst.2 (Or.inr hj)
  · rcases mem_meet_fst.1 hj with hj | hj
    · exact absurd hj Std.TreeSet.not_mem_emptyc
    · exact absurd (mem_meet_snd_of_new hj Std.TreeSet.not_mem_emptyc) hn

/-- The rounds that a closure allows are enough from there. -/
theorem start_budget : (meet ∅ [] seeds).2.length + unseen ts (meet ∅ [] seeds).1 ≤
    seeds.length + ts.length := by
  have := length_meet_le ∅ [] seeds
  have := unseen_le ts (meet ∅ [] seeds).1
  simp only [List.length_nil] at *
  omega

/-- Once nothing is pending, the ids seen are the ends of the paths from the seeds. -/
theorem Explored.mem_iff {seen : IdSet} (h : Explored ts seeds seen []) {j : Int} :
    j ∈ seen ↔ ∃ i ∈ seeds, Path ts i [] j := by
  constructor
  · exact h.sound j
  · rintro ⟨i, hi, hp⟩
    exact hp.silent (fun k l ht hk => h.followed k hk List.not_mem_nil l ht) (h.seeded i hi)

/-- **Following transitions is exact**: it meets the ends of the paths from the seeds that consume
nothing. -/
theorem mem_explore_iff (hnext : Follows ts next) {j : Int} :
    j ∈ explore next (seeds.length + ts.length) (meet ∅ [] seeds).1 (meet ∅ [] seeds).2 ↔
      ∃ i ∈ seeds, Path ts i [] j :=
  (explored_start.exhaust hnext start_budget).mem_iff

/-- **The closure by index is exact.** -/
theorem mem_closure_iff {j : Int} :
    j ∈ closure (OutEdges.ofList ts) seeds ↔ ∃ i ∈ seeds, Path ts i [] j :=
  mem_explore_iff fun _ _ => mem_epsilonTargets

/-- **The closure by table is exact.** -/
theorem mem_closureOf_iff {j : Int} :
    j ∈ closureOf ts seeds ↔ ∃ i ∈ seeds, Path ts i [] j :=
  mem_explore_iff fun _ _ => mem_epsilonTable

end Reach

end RegexStepper

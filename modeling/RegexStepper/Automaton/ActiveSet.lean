import RegexStepper.Symbol

/-!
# States and sets of states

A state is known by its id; whether it accepts is a mark on it. An `ActiveSet` is a finite set of
states: a list with strictly ascending ids, so two equal sets are equal lists and no id occurs
twice. `ActiveSet.ofList` keeps, of several states with one id, the first.
-/

namespace RegexStepper

/-- The name of the state with an id. -/
def stateName (id : Int) : String :=
  s!"q{id}"

/-- A state of an automaton. -/
structure State where
  id : Int
  accepting : Bool
deriving DecidableEq, Repr

namespace State

/-- States are the same when their ids are. -/
def same (s t : State) : Bool :=
  s.id == t.id

/-- The name of a state, starred if it accepts. -/
def text (s : State) : String :=
  stateName s.id ++ if s.accepting then "*" else ""

/-- Puts a state at the place of its id, instead of one that is there. -/
def insertById (s : State) : List State → List State
  | [] => [s]
  | t :: rest =>
    if s.id < t.id then s :: t :: rest
    else if s.id = t.id then s :: rest
    else t :: insertById s rest

theorem id_mem_insertById {s : State} {ts : List State} {i : Int} :
    i ∈ (insertById s ts).map State.id ↔ i = s.id ∨ i ∈ ts.map State.id := by
  induction ts with
  | nil => simp [insertById]
  | cons t rest ih =>
    unfold insertById
    split
    · simp
    · split
      · rename_i _ h
        simp [h]
      · rw [List.map_cons, List.mem_cons, ih, List.map_cons, List.mem_cons]
        exact or_left_comm

/-- Nothing else enters. -/
theorem mem_of_mem_insertById {s u : State} {ts : List State} (h : u ∈ insertById s ts) :
    u = s ∨ u ∈ ts := by
  induction ts with
  | nil => exact Or.inl (List.mem_singleton.1 h)
  | cons t rest ih =>
    unfold insertById at h
    split at h
    · exact List.mem_cons.1 h
    · split at h
      · exact (List.mem_cons.1 h).imp_right (List.mem_cons_of_mem t)
      · rcases List.mem_cons.1 h with rfl | h
        · exact Or.inr List.mem_cons_self
        · exact (ih h).imp_right (List.mem_cons_of_mem t)

theorem pairwise_insertById {s : State} {ts : List State}
    (h : ts.Pairwise (·.id < ·.id)) : (insertById s ts).Pairwise (·.id < ·.id) := by
  induction ts with
  | nil => exact List.pairwise_singleton _ s
  | cons t rest ih =>
    obtain ⟨hlt, hrest⟩ := List.pairwise_cons.1 h
    unfold insertById
    split
    · rename_i hs
      refine List.pairwise_cons.2 ⟨?_, h⟩
      intro u hu
      rcases List.mem_cons.1 hu with rfl | hu
      · exact hs
      · exact Int.lt_trans hs (hlt u hu)
    · split
      · rename_i _ he
        exact List.pairwise_cons.2 ⟨fun u hu => he ▸ hlt u hu, hrest⟩
      · rename_i hn he
        refine List.pairwise_cons.2 ⟨?_, ih hrest⟩
        intro u hu
        rcases id_mem_insertById.1 (List.mem_map_of_mem hu) with hi | hi
        · rw [hi]; omega
        · obtain ⟨v, hv, hvi⟩ := List.mem_map.1 hi
          exact hvi ▸ hlt v hv

end State

/-- A finite set of states, in ascending order of their ids. -/
structure ActiveSet where
  states : List State
  ascending : states.Pairwise (·.id < ·.id)
deriving DecidableEq, Repr

namespace ActiveSet

/-- The set of the states of a list; of several with one id, the first. -/
def ofList (states : List State) : ActiveSet where
  states := states.foldr State.insertById []
  ascending := by
    induction states with
    | nil => exact List.Pairwise.nil
    | cons s rest ih => exact State.pairwise_insertById ih

/-- The ids of a set, ascending. -/
def ids (active : ActiveSet) : List Int :=
  active.states.map State.id

/-- No state is active. -/
def isEmpty (active : ActiveSet) : Bool :=
  active.states.isEmpty

/-- How many states there are. -/
def size (active : ActiveSet) : Nat :=
  active.states.length

/-- A state of the list accepts, by its own mark. -/
def anyAccepting (states : List State) : Bool :=
  states.any State.accepting

/-- A state of the set accepts. -/
def hasAccepting (active : ActiveSet) : Bool :=
  anyAccepting active.states

theorem ids_ascending (active : ActiveSet) : active.ids.Pairwise (· < ·) :=
  List.pairwise_map.2 active.ascending

@[simp] theorem mem_ids_ofList {states : List State} {i : Int} :
    i ∈ (ofList states).ids ↔ i ∈ states.map State.id := by
  unfold ids ofList
  simp only
  induction states with
  | nil => simp
  | cons s rest ih =>
    rw [List.foldr_cons, State.id_mem_insertById, ih, List.map_cons, List.mem_cons]

/-- The states of the set are states of the list. -/
theorem mem_of_mem_ofList {states : List State} {s : State} (h : s ∈ (ofList states).states) :
    s ∈ states := by
  unfold ofList at h
  induction states with
  | nil => exact absurd h List.not_mem_nil
  | cons t rest ih =>
    rcases State.mem_of_mem_insertById h with rfl | h
    · exact List.mem_cons_self
    · exact List.mem_cons_of_mem t (ih h)

theorem isEmpty_iff {active : ActiveSet} : active.isEmpty = true ↔ active.ids = [] := by
  unfold isEmpty ids
  rw [List.isEmpty_iff, List.map_eq_nil_iff]

theorem isEmpty_eq_false_iff {active : ActiveSet} :
    active.isEmpty = false ↔ ∃ i, i ∈ active.ids := by
  rw [← List.isEmpty_eq_false_iff_exists_mem, ids, List.isEmpty_map, isEmpty]

theorem hasAccepting_iff {active : ActiveSet} :
    active.hasAccepting = true ↔ ∃ s ∈ active.states, s.accepting = true := by
  unfold hasAccepting anyAccepting
  rw [List.any_eq_true]

end ActiveSet

/-- How many different states a list holds. -/
def State.countDistinct (states : List State) : Nat :=
  (ActiveSet.ofList states).size

end RegexStepper

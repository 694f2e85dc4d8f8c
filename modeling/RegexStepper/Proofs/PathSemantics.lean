import RegexStepper.Automaton.Reach.Exact
import RegexStepper.Proofs.History
import RegexStepper.Regex

/-!
# Sets of states and paths

An automaton is `Indexed` if the state stored at place `i` has the id `i` and no transition leads to
an id without a state. On such an automaton closing and stepping never fail, and the sets they
answer are those of path semantics:

* `Indexed.close_spec`, `Indexed.step_spec`: what one operation reaches, as paths;
* `Indexed.reached_spec`: a text reaches exactly the ends of the paths that spell it;
* `Indexed.accepts_spec`: a text is accepted iff such a path ends in an accepting state.

The states of the sets are the automaton's own records (`Owns`), so their flags are its flags.
Headline: **`simulates_paths`**, which says the last two of the states themselves.
-/

namespace RegexStepper

namespace Automaton

variable {A : Automaton}

/-- A state with the number `i` is there. -/
def HasId (A : Automaton) (i : Int) : Prop :=
  0 ≤ i ∧ i < A.states.size

/-- Ids are places, and transitions lead to ids that are there. -/
structure Indexed (A : Automaton) : Prop where
  id_eq : ∀ i (_ : i < A.states.size), A.states[i].id = i
  target_hasId : ∀ t ∈ A.transitions, A.HasId t.target

/-- The states of a set are the automaton's own. -/
def Owns (A : Automaton) (active : ActiveSet) : Prop :=
  ∀ s ∈ active.states, A.state s.id = .ok s

/-- The state with the number `i` accepts. -/
def Accepting (A : Automaton) (i : Int) : Prop :=
  ∃ s, A.state i = .ok s ∧ s.accepting = true

/-- A set of the automaton's own states accepts where one of their ids does. -/
theorem Owns.hasAccepting_iff {active : ActiveSet} (h : A.Owns active) :
    active.hasAccepting = true ↔ ∃ i ∈ active.ids, A.Accepting i := by
  rw [ActiveSet.hasAccepting_iff]
  constructor
  · rintro ⟨s, hs, haccepting⟩
    exact ⟨s.id, List.mem_map_of_mem hs, s, h s hs, haccepting⟩
  · rintro ⟨i, hi, s, hs, haccepting⟩
    obtain ⟨t, ht, rfl⟩ := List.mem_map.mp hi
    have hts : t = s := Except.ok.inj ((h t ht).symm.trans hs)
    exact ⟨t, ht, hts ▸ haccepting⟩

/-- Of the states found under their own ids, a set of the automaton's own states holds those whose
ids it holds. -/
theorem Owns.mem_iff {active : ActiveSet} (h : A.Owns active) {s : State}
    (hs : A.state s.id = .ok s) : s ∈ active.states ↔ s.id ∈ active.ids := by
  refine ⟨fun hmem => List.mem_map_of_mem hmem, fun hid => ?_⟩
  obtain ⟨t, ht, hsame⟩ := List.mem_map.mp hid
  have hstate := h t ht
  rw [hsame, hs] at hstate
  exact Except.ok.inj hstate ▸ ht

/-- A state found under a number that is there is one of the states. -/
theorem mem_states_of_state {i : Int} {s : State} (hi : A.HasId i) (hs : A.state i = .ok s) :
    s ∈ A.states := by
  obtain ⟨n, rfl⟩ := Int.eq_ofNat_of_zero_le hi.1
  rw [A.state_natCast (Int.ofNat_lt.mp hi.2)] at hs
  exact Except.ok.inj hs ▸ Array.getElem_mem _

namespace Indexed

/-- A state is found under its id. -/
theorem state_of_mem (h : A.Indexed) {s : State} (hs : s ∈ A.states) :
    A.HasId s.id ∧ A.state s.id = .ok s := by
  obtain ⟨i, hi, rfl⟩ := Array.mem_iff_getElem.mp hs
  rw [h.id_eq i hi]
  exact ⟨⟨Int.natCast_nonneg i, Int.ofNat_lt.mpr hi⟩, A.state_natCast hi⟩

/-- A number that is there has its state. -/
theorem state_eq (h : A.Indexed) {i : Int} (hi : A.HasId i) :
    ∃ s, A.state i = .ok s ∧ s.id = i := by
  obtain ⟨n, rfl⟩ := Int.eq_ofNat_of_zero_le hi.1
  have hn : n < A.states.size := Int.ofNat_lt.mp hi.2
  exact ⟨_, A.state_natCast hn, h.id_eq n hn⟩

/-- A number accepts where one of the states that bear it does. -/
theorem accepting_iff (h : A.Indexed) {i : Int} (hi : A.HasId i) :
    A.Accepting i ↔ ∃ s ∈ A.states, s.id = i ∧ s.accepting = true := by
  constructor
  · rintro ⟨s, hs, haccepting⟩
    obtain ⟨t, ht, hid⟩ := h.state_eq hi
    obtain rfl : s = t := Except.ok.inj (hs.symm.trans ht)
    exact ⟨s, mem_states_of_state hi hs, hid, haccepting⟩
  · rintro ⟨s, hs, rfl, haccepting⟩
    exact ⟨s, (h.state_of_mem hs).2, haccepting⟩

theorem mapM_state (h : A.Indexed) {ids : List Int} (hids : ∀ i ∈ ids, A.HasId i) :
    ∃ states, ids.mapM A.state = .ok states ∧ states.map State.id = ids ∧
      ∀ s ∈ states, A.state s.id = .ok s := by
  induction ids with
  | nil => exact ⟨[], rfl, rfl, fun s hs => absurd hs List.not_mem_nil⟩
  | cons i ids ih =>
    obtain ⟨s, hs, hid⟩ := h.state_eq (hids i List.mem_cons_self)
    obtain ⟨states, hstates, hmap, hown⟩ := ih fun j hj => hids j (List.mem_cons_of_mem i hj)
    refine ⟨s :: states, ?_, by rw [List.map_cons, hid, hmap], fun t ht => ?_⟩
    · rw [List.mapM_cons, hs, hstates]
      rfl
    · rcases List.mem_cons.mp ht with rfl | ht
      · rw [hid, hs]
      · exact hown t ht

/-- Gathering numbers that are there answers their states, in whatever order they are looked up. -/
theorem gather_spec (h : A.Indexed) {ids : List Int} (hids : ∀ i ∈ ids, A.HasId i) :
    ∃ active, A.gather ids = .ok active ∧ A.Owns active ∧ ∀ i, i ∈ active.ids ↔ i ∈ ids := by
  have horder : ∀ i, i ∈ SignedIndex.startFirst ids ↔ i ∈ ids :=
    fun i => (SignedIndex.startFirst_perm ids).mem_iff
  obtain ⟨states, hstates, hmap, hown⟩ := h.mapM_state fun i hi => hids i ((horder i).mp hi)
  refine ⟨.ofList states, ?_, fun s hs => hown s (ActiveSet.mem_of_mem_ofList hs), fun i => ?_⟩
  · unfold gather
    rw [hstates]
    rfl
  · rw [ActiveSet.mem_ids_ofList, hmap, horder]

/-- A path from a number that is there ends in one. -/
theorem hasId_of_path (h : A.Indexed) {i j : Int} {w : List String}
    (hp : Path A.transitions i w j) (hi : A.HasId i) : A.HasId j :=
  hp.invariant (fun t ht _ => h.target_hasId t ht) hi

/-- **Closing** reaches the ends of the paths that consume nothing. -/
theorem close_spec (h : A.Indexed) (states : List State) (hids : ∀ s ∈ states, A.HasId s.id) :
    ∃ active, A.close states = .ok active ∧ A.Owns active ∧
      ∀ j, j ∈ active.ids ↔ ∃ s ∈ states, Path A.transitions s.id [] j := by
  have hmem : ∀ j, j ∈ (Reach.closure A.edges (states.map State.id)).toList ↔
      ∃ s ∈ states, Path A.transitions s.id [] j := by
    intro j
    rw [Std.TreeSet.mem_toList, A.edges_eq]
    refine Reach.mem_closure_iff.trans ?_
    constructor
    · rintro ⟨i, hi, hp⟩
      obtain ⟨s, hs, rfl⟩ := List.mem_map.mp hi
      exact ⟨s, hs, hp⟩
    · rintro ⟨s, hs, hp⟩
      exact ⟨s.id, List.mem_map_of_mem hs, hp⟩
  have hvalid : ∀ j ∈ (Reach.closure A.edges (states.map State.id)).toList, A.HasId j := by
    intro j hj
    obtain ⟨s, hs, hp⟩ := (hmem j).mp hj
    exact h.hasId_of_path hp (hids s hs)
  obtain ⟨active, hactive, hown, hids'⟩ := h.gather_spec hvalid
  exact ⟨active, hactive, hown, fun j => (hids' j).trans (hmem j)⟩

/-- **Stepping** takes one transition on the symbol and closes. -/
theorem step_spec (h : A.Indexed) (states : List State) (symbol : Symbol) :
    ∃ active, A.step states symbol = .ok active ∧ A.Owns active ∧
      ∀ j, j ∈ active.ids ↔
        ∃ s ∈ states, ∃ k, ⟨s.id, k, symbol⟩ ∈ A.transitions ∧ Path A.transitions k [] j := by
  have hdirect : ∀ k, k ∈ states.flatMap (fun s => (A.outgoing s.id symbol).map (·.target)) ↔
      ∃ s ∈ states, ⟨s.id, k, symbol⟩ ∈ A.transitions := by
    intro k
    simp only [List.mem_flatMap, List.mem_map, mem_outgoing]
    refine exists_congr fun s => and_congr_right fun _ => ?_
    constructor
    · rintro ⟨⟨source, target, label⟩, ⟨ht, hsource, hlabel⟩, htarget⟩
      subst hsource hlabel htarget
      exact ht
    · intro ht
      exact ⟨_, ⟨ht, rfl, rfl⟩, rfl⟩
  have hvalid : ∀ k ∈ states.flatMap (fun s => (A.outgoing s.id symbol).map (·.target)),
      A.HasId k := by
    intro k hk
    obtain ⟨s, _, ht⟩ := (hdirect k).mp hk
    exact h.target_hasId _ ht
  obtain ⟨targets, htargets, hmap, hown⟩ := h.mapM_state hvalid
  have htarget : ∀ s ∈ targets, A.HasId s.id := fun s hs =>
    hvalid s.id (hmap ▸ List.mem_map_of_mem hs)
  obtain ⟨active, hactive, howns, hids⟩ := h.close_spec targets htarget
  refine ⟨active, ?_, howns, fun j => (hids j).trans ?_⟩
  · unfold step
    simp only [htargets]
    exact hactive
  · constructor
    · rintro ⟨t, ht, hp⟩
      obtain ⟨s, hs, hst⟩ := (hdirect t.id).mp (hmap ▸ List.mem_map_of_mem ht)
      exact ⟨s, hs, t.id, hst, hp⟩
    · rintro ⟨s, hs, k, hk, hp⟩
      obtain ⟨t, ht, rfl⟩ := List.mem_map.mp (hmap.symm ▸ (hdirect k).mpr ⟨s, hs, hk⟩)
      exact ⟨t, ht, hp⟩

/-- A text reaches the ends of the paths that spell it. -/
theorem reached_spec (h : A.Indexed) (hstart : A.HasId A.start.id) (text : List Char) :
    ∃ active, A.reached text = .ok active ∧ A.Owns active ∧
      ∀ j, j ∈ active.ids ↔ Path A.transitions A.start.id (Regex.symbols text) j := by
  induction text using List.reverseRecOn with
  | nil =>
    obtain ⟨active, hactive, hown, hids⟩ :=
      h.close_spec [A.start] fun s hs => List.mem_singleton.mp hs ▸ hstart
    refine ⟨active, by rw [reached_nil]; exact hactive, hown, fun j => (hids j).trans ?_⟩
    simp only [List.mem_singleton, exists_eq_left, Regex.symbols, List.map_nil]
  | append_singleton text c ih =>
    obtain ⟨before, hbefore, _, hids⟩ := ih
    obtain ⟨active, hactive, hown, hmem⟩ := h.step_spec before.states (Symbol.ofChar c)
    refine ⟨active, by rw [reached_snoc, hbefore]; exact hactive, hown, fun j => (hmem j).trans ?_⟩
    have hsymbols : Regex.symbols (text ++ [c]) = Regex.symbols text ++ [c.toString] :=
      List.map_append
    rw [hsymbols, Path.snoc_iff]
    constructor
    · rintro ⟨s, hs, k, hk, hp⟩
      exact ⟨s.id, k, (hids s.id).mp (List.mem_map_of_mem hs), hk, hp⟩
    · rintro ⟨m, k, hm, hk, hp⟩
      obtain ⟨s, hs, rfl⟩ := List.mem_map.mp ((hids m).mpr hm)
      exact ⟨s, hs, k, hk, hp⟩

/-- Acceptance is a path to an accepting state. -/
theorem accepts_spec (h : A.Indexed) (hstart : A.HasId A.start.id) (text : List Char) :
    ∃ verdict, A.accepts text = .ok verdict ∧ (verdict = true ↔
      ∃ j, Path A.transitions A.start.id (Regex.symbols text) j ∧ A.Accepting j) := by
  obtain ⟨active, hactive, hown, hids⟩ := h.reached_spec hstart text
  refine ⟨active.hasAccepting, by rw [accepts_eq, hactive]; rfl, hown.hasAccepting_iff.trans ?_⟩
  exact exists_congr fun j => and_congr_left fun _ => hids j

end Indexed

/-! ## Main result -/

/-- **Set simulation is path semantics**, on every automaton whose ids are places, whose start is
one of them and whose transitions lead to them: the set that a text reaches holds those of the
automaton's states that a path from the start leads to, with the characters of the text on it in
order; and the text is accepted iff one of these states accepts. -/
theorem simulates_paths (h : A.Indexed) (hstart : A.HasId A.start.id) (text : List Char) :
    (∃ active, A.reached text = .ok active ∧ ∀ s, s ∈ active.states ↔
      s ∈ A.states ∧ Path A.transitions A.start.id (Regex.symbols text) s.id) ∧
    ∃ verdict, A.accepts text = .ok verdict ∧ (verdict = true ↔
      ∃ s ∈ A.states, s.accepting = true ∧
        Path A.transitions A.start.id (Regex.symbols text) s.id) := by
  constructor
  · obtain ⟨active, hactive, hown, hids⟩ := h.reached_spec hstart text
    refine ⟨active, hactive, fun s => ⟨fun hs => ?_, fun ⟨hs, hpath⟩ => ?_⟩⟩
    · have hpath := (hids s.id).mp (List.mem_map_of_mem hs)
      exact ⟨mem_states_of_state (h.hasId_of_path hpath hstart) (hown s hs), hpath⟩
    · exact (hown.mem_iff (h.state_of_mem hs).2).mpr ((hids s.id).mpr hpath)
  · obtain ⟨verdict, hverdict, haccepts⟩ := h.accepts_spec hstart text
    refine ⟨verdict, hverdict, haccepts.trans ⟨?_, ?_⟩⟩
    · rintro ⟨j, hpath, haccepting⟩
      obtain ⟨s, hs, rfl, hflag⟩ := (h.accepting_iff (h.hasId_of_path hpath hstart)).mp haccepting
      exact ⟨s, hs, hflag, hpath⟩
    · rintro ⟨s, hs, hflag, hpath⟩
      exact ⟨s.id, hpath, s, (h.state_of_mem hs).2, hflag⟩

/-- A circle that consumes nothing, a loop, two transitions between the same states on one symbol,
a symbol of two characters and two accepting states. -/
def tangle : Automaton where
  start := ⟨1, false⟩
  final := ⟨3, false⟩
  states := #[⟨0, false⟩, ⟨1, true⟩, ⟨2, true⟩, ⟨3, false⟩]
  transitions := [⟨1, 0, none⟩, ⟨0, 1, none⟩, ⟨0, 0, some "a"⟩, ⟨0, 2, some "b"⟩, ⟨0, 2, some "b"⟩,
    ⟨1, 3, some "ab"⟩, ⟨3, 2, none⟩]

/-- Round the circle and the loop to the second accepting state. The symbol of two characters is
never taken, so the state behind it is not reached. -/
theorem simulates_paths_tangle :
    tangle.Indexed ∧ tangle.HasId tangle.start.id ∧
    tangle.accepts ['a', 'b'] = .ok true ∧
    (∃ s ∈ tangle.states, s.accepting = true ∧ Path tangle.transitions 1 ["a", "b"] s.id) ∧
    ∃ active, tangle.reached ['a', 'b'] = .ok active ∧ active.ids = [2] ∧
      ∀ s, s ∈ active.states ↔ s ∈ tangle.states ∧ Path tangle.transitions 1 ["a", "b"] s.id := by
  have htargets : ∀ t ∈ tangle.transitions, 0 ≤ t.target ∧ t.target < tangle.states.size := by
    decide
  have hindexed : tangle.Indexed := ⟨by decide, htargets⟩
  have hstart : 0 ≤ tangle.start.id ∧ tangle.start.id < tangle.states.size := by decide
  have hrun : ActiveSet.ids <$> tangle.reached ['a', 'b'] = .ok [2] := by decide +kernel
  have haccepts : tangle.accepts ['a', 'b'] = .ok true := by decide +kernel
  obtain ⟨⟨active, hactive, hmem⟩, verdict, hverdict, hiff⟩ :=
    simulates_paths hindexed hstart ['a', 'b']
  obtain rfl : true = verdict := Except.ok.inj (haccepts.symm.trans hverdict)
  rw [hactive] at hrun
  exact ⟨hindexed, hstart, haccepts, hiff.mp rfl, active, hactive, Except.ok.inj hrun, hmem⟩

end Automaton

end RegexStepper

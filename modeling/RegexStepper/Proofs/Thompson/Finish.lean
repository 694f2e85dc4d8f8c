import RegexStepper.Proofs.PathSemantics
import RegexStepper.Proofs.Thompson.Growth
import RegexStepper.Proofs.Thompson.Language

/-!
# The automaton that is finished

Finishing exchanges the numbers of the start state and of state 0; up to that renaming the states,
flags and transitions are those of the draft (`Draft.Finished`, `Draft.finish_spec`).

An automaton `Realizes` an expression if it is indexed, its accepting paths spell what the
expression matches, each of its states leads to an accepting one, and its symbols are those of the
expression. Headlines:

* **`assemble_spec`**: a token list that stands for an expression is assembled into its draft,
  finished (`Automaton.Depicts`), which realizes it;
* **`assemble_fault`**: any other token list is refused;
* **`assembleEmpty_spec`**: the automaton of no token at all matches the empty text alone;
* **`assembles_evaluated`**: the token lists that are assembled are those that evaluate to one
  expression, and their paths spell it.
-/

namespace RegexStepper

namespace Draft

variable {d : Draft} {start final i : Nat}

/-! ## Renumbering -/

/-- Exchanging two states keeps a number among the states. -/
theorem renumber_natCast (start i : Nat) :
    renumber start i = ((if i = start then 0 else if i = 0 then start else i : Nat) : Int) := by
  unfold renumber
  by_cases hstart : i = start
  · rw [if_pos (by omega), if_pos hstart]
    rfl
  · rw [if_neg (by omega), if_neg hstart]
    by_cases hzero : i = 0
    · rw [if_pos (by omega), if_pos hzero]
    · rw [if_neg (by omega), if_neg hzero]

/-- After the exchange, a flag is found under the new number of its state. -/
theorem getElem?_swap {flags : Array Bool} (hstart : start < flags.size) (hi : i < flags.size) :
    (flags.swapIfInBounds 0 start)[if i = start then 0 else if i = 0 then start else i]? =
      some flags[i] := by
  have hpos : 0 < flags.size := Nat.lt_of_le_of_lt (Nat.zero_le i) hi
  have hget : ∀ n (_ : n < flags.size), (flags.swapIfInBounds 0 start)[n]? =
      some (if n = 0 then flags[start] else if n = start then flags[0] else flags[n]) := by
    intro n hn
    rw [Array.getElem?_eq_getElem (by rwa [Array.size_swapIfInBounds]),
      Array.getElem_swapIfInBounds]
    simp only [hstart, hpos, and_true]
    rfl
  by_cases hs : i = start
  · rw [if_pos hs, hget 0 hpos, if_pos rfl]
    simp only [hs]
  · rw [if_neg hs]
    by_cases hz : i = 0
    · subst hz
      rw [if_pos rfl, hget start hstart, if_neg fun h => hs h.symm, if_pos rfl]
    · rw [if_neg hz, hget i hi, if_neg hz, if_neg hs]

/-- The automaton `A` is the draft with the numbers `start` and 0 exchanged. -/
structure Finished (d : Draft) (start : Nat) (A : Automaton) : Prop where
  start_lt : start < d.accepting.size
  size_eq : A.states.size = d.accepting.size
  id_eq : ∀ i (_ : i < A.states.size), A.states[i].id = i
  state_eq : ∀ i (_ : i < d.accepting.size),
    A.state (renumber start i) = .ok ⟨renumber start i, d.accepting[i]⟩
  start_eq : A.start.id = 0
  transitions_eq : A.transitions = d.transitions.toList.map (·.rename (renumber start))

/-- **Finishing succeeds** on two states of the draft. -/
theorem finish_spec (hstart : start < d.accepting.size) (hfinal : final < d.accepting.size) :
    ∃ A, d.finish start final = .ok A ∧ d.Finished start A := by
  set flags := d.accepting.swapIfInBounds 0 start with hflags
  set states := flags.mapIdx fun i accepting => (⟨i, accepting⟩ : State) with hstates
  have hsize : states.size = d.accepting.size := by
    rw [hstates, Array.size_mapIdx, hflags, Array.size_swapIfInBounds]
  have hget : ∀ i (_ : i < d.accepting.size), Automaton.stateAt states (renumber start i) =
      .ok ⟨renumber start i, d.accepting[i]⟩ := by
    intro i hi
    unfold Automaton.stateAt
    rw [renumber_natCast, SignedIndex.get?_natCast, hstates, Array.getElem?_mapIdx, hflags,
      getElem?_swap hstart hi]
    rfl
  have hzero := hget start hstart
  rw [renumber_start] at hzero
  unfold finish
  rw [SignedIndex.offset?_natCast, if_pos hstart]
  simp only [← hflags, ← hstates, hzero, hget final hfinal]
  refine ⟨_, rfl, ⟨hstart, hsize, fun i hi => ?_, hget, rfl, rfl⟩⟩
  simp only [hstates, Array.getElem_mapIdx]

/-- The two ends of a finished automaton are states of it: the first one, and the final one of the
draft under its new number. -/
theorem ends_of_finish {A : Automaton} (h : d.finish start final = .ok A) :
    A.state 0 = .ok A.start ∧ A.state (renumber start final) = .ok A.final := by
  unfold finish at h
  split at h
  · cases h
  · obtain ⟨first, hfirst, h⟩ := bind_eq_ok.mp h
    obtain ⟨last, hlast, h⟩ := bind_eq_ok.mp h
    cases h
    exact ⟨hfirst, hlast⟩

namespace Finished

variable {A : Automaton}

/-- Renamed or not, a number is among the states. -/
theorem hasId_renumber (h : d.Finished start A) (i : Int) :
    A.HasId (renumber start i) ↔ A.HasId i := by
  have hlt := h.start_lt
  unfold Automaton.HasId renumber
  rw [h.size_eq]
  by_cases hs : i = start
  · rw [if_pos hs]
    omega
  · rw [if_neg hs]
    by_cases hz : i = 0
    · rw [if_pos hz]
      omega
    · rw [if_neg hz]

/-- A state is one of the draft, renamed. -/
theorem exists_of_hasId (h : d.Finished start A) {i : Int} (hi : A.HasId i) :
    ∃ n, n < d.accepting.size ∧ i = renumber start n := by
  obtain ⟨hlow, hhigh⟩ := (h.hasId_renumber i).mpr hi
  obtain ⟨n, hn⟩ := Int.eq_ofNat_of_zero_le hlow
  rw [hn, h.size_eq] at hhigh
  exact ⟨n, Int.ofNat_lt.mp hhigh, by rw [← hn, renumber_renumber]⟩

/-- A state accepts where its flag in the draft is set. -/
theorem accepting_renumber (h : d.Finished start A) (hi : i < d.accepting.size) :
    A.Accepting (renumber start i) ↔ d.accepting[i] = true := by
  unfold Automaton.Accepting
  rw [h.state_eq i hi]
  constructor
  · rintro ⟨s, hs, haccepting⟩
    cases hs
    exact haccepting
  · intro haccepting
    exact ⟨_, rfl, haccepting⟩

/-- The paths are those of the draft. -/
theorem path_iff (h : d.Finished start A) {i j : Int} {w : List String} :
    Path A.transitions (renumber start i) w (renumber start j) ↔
      Path d.transitions.toList i w j := by
  rw [h.transitions_eq, Path.rename_iff (renumber_renumber start), renumber_renumber,
    renumber_renumber]

theorem start_eq_renumber (h : d.Finished start A) : A.start.id = renumber start start := by
  rw [h.start_eq, renumber_start]

/-- A draft whose transitions lead to states of it is finished as an indexed automaton. -/
theorem indexed (h : d.Finished start A)
    (hts : ∀ t ∈ d.transitions.toList, 0 ≤ t.target ∧ t.target < d.accepting.size) :
    A.Indexed := by
  refine ⟨h.id_eq, fun t ht => ?_⟩
  rw [h.transitions_eq] at ht
  obtain ⟨u, hu, rfl⟩ := List.mem_map.mp ht
  refine (h.hasId_renumber u.target).mpr ?_
  unfold Automaton.HasId
  rw [h.size_eq]
  exact hts u hu

/-- Its start is one of its states. -/
theorem start_hasId (h : d.Finished start A) : A.HasId A.start.id := by
  rw [h.start_eq_renumber, h.hasId_renumber]
  unfold Automaton.HasId
  rw [h.size_eq]
  exact ⟨Int.natCast_nonneg start, Int.ofNat_lt.mpr h.start_lt⟩

/-- **What it accepts**: the texts that the transitions of the draft spell on a path from the start
to a state with its flag set. -/
theorem accepts_iff (h : d.Finished start A)
    (hts : ∀ t ∈ d.transitions.toList, 0 ≤ t.target ∧ t.target < d.accepting.size)
    (text : List Char) :
    ∃ verdict, A.accepts text = .ok verdict ∧ (verdict = true ↔
      ∃ n : Nat, d.accepting[n]? = some true ∧
        Path d.transitions.toList start (Regex.symbols text) n) := by
  have hindexed := h.indexed hts
  obtain ⟨verdict, hverdict, haccepts⟩ := hindexed.accepts_spec h.start_hasId text
  refine ⟨verdict, hverdict, haccepts.trans ⟨?_, ?_⟩⟩
  · rintro ⟨j, hj, haccepting⟩
    obtain ⟨n, hn, rfl⟩ := h.exists_of_hasId (hindexed.hasId_of_path hj h.start_hasId)
    rw [h.start_eq_renumber, h.path_iff] at hj
    rw [h.accepting_renumber hn] at haccepting
    exact ⟨n, by rw [Array.getElem?_eq_getElem hn, haccepting], hj⟩
  · rintro ⟨n, hflag, hpath⟩
    obtain ⟨hn, haccepting⟩ := Array.getElem?_eq_some_iff.mp hflag
    refine ⟨renumber start n, ?_, (h.accepting_renumber hn).mpr haccepting⟩
    rwa [h.start_eq_renumber, h.path_iff]

end Finished

end Draft

/-! ## Realizing an expression -/

/-- The automaton `A` accepts what the expression `r` matches, and has no state without a way to
acceptance. -/
structure Automaton.Realizes (A : Automaton) (r : Regex) : Prop where
  indexed : A.Indexed
  start_hasId : A.HasId A.start.id
  accepts_iff : ∀ w,
    (∃ j, Path A.transitions A.start.id w j ∧ A.Accepting j) ↔ r.Matches w
  live : ∀ i, A.HasId i → ∃ w j, Path A.transitions i w j ∧ A.Accepting j
  symbol_mem : ∀ t ∈ A.transitions, ∀ s, t.symbol = some s → s ∈ r.letters

/-- The symbols on the transitions of an expression are written in it. -/
theorem Regex.symbol_mem_letters (r : Regex) (base : Nat) {t : Transition} {s : String}
    (ht : t ∈ r.edges base) (hs : t.symbol = some s) : s ∈ r.letters := by
  have hrepeat : ∀ {again bypass : Bool} {f outer : Fragment},
      t ∈ Regex.repeatEdges again bypass f outer → t.symbol = none := by
    intro again bypass f outer ht
    rcases Regex.mem_repeatEdges.mp ht with rfl | rfl | ⟨_, rfl⟩ | ⟨_, rfl⟩ <;> rfl
  have hsilent : ∀ {P : Prop}, t.symbol = none → P := fun hnone =>
    absurd (hnone.symm.trans hs) (by simp)
  induction r generalizing base with
  | epsilon =>
    obtain rfl := List.mem_singleton.mp ht
    exact hsilent rfl
  | symbol letter =>
    obtain rfl := List.mem_singleton.mp ht
    obtain rfl := Option.some.inj hs
    exact List.mem_cons_self
  | concat r₁ r₂ ih₁ ih₂ =>
    rcases List.mem_append.mp ht with ht | ht
    · exact List.mem_append.mpr ((List.mem_append.mp ht).imp (ih₁ _) (ih₂ _))
    · obtain rfl := List.mem_singleton.mp ht
      exact hsilent rfl
  | union r₁ r₂ ih₁ ih₂ =>
    rcases List.mem_append.mp ht with ht | ht
    · exact List.mem_append.mpr ((List.mem_append.mp ht).imp (ih₁ _) (ih₂ _))
    · rcases Regex.mem_unionEdges.mp ht with rfl | rfl | rfl | rfl <;> exact hsilent rfl
  | star r ih | plus r ih | optional r ih =>
    rcases List.mem_append.mp ht with ht | ht
    · exact ih _ ht
    · exact hsilent (hrepeat ht)

/-! ## One expression left -/

namespace Draft

variable {d : Draft} {r : Regex} {start : Nat}

/-- The draft is the expression `r` and nothing else, with its final state alone flagged. -/
structure Draws (d : Draft) (r : Regex) : Prop where
  size_eq : d.accepting.size = r.width
  transitions_eq : d.transitions.toList = r.edges 0
  flag_iff : ∀ i (_ : i < d.accepting.size), d.accepting[i] = true ↔ i = (r.fragment 0).final

/-- The draft with its last fragment taken off and the flags of its ends set. -/
def complete (d : Draft) (f : Fragment) : Draft :=
  ⟨(d.accepting.setIfInBounds f.start false).setIfInBounds f.final true, d.transitions, []⟩

theorem holds_complete {f g : Fragment} : (d.complete f).Holds g ↔ d.Holds g := by
  simp only [Holds, complete, Array.size_setIfInBounds]

/-- Of the states of one expression, its final state alone is flagged when it is completed. -/
theorem Grown.flag_iff {d₀ : Draft} (h : Grown d₀ [r] d) {i : Nat}
    (hi : i < (d.complete (r.fragment d₀.accepting.size)).accepting.size)
    (hbase : d₀.accepting.size ≤ i) :
    (d.complete (r.fragment d₀.accepting.size)).accepting[i] = true ↔
      i = (r.fragment d₀.accepting.size).final := by
  constructor
  · intro htrue
    by_contra hne
    have hflag : (d.complete (r.fragment d₀.accepting.size)).accepting[i]? = some true := by
      rw [Array.getElem?_eq_getElem hi, htrue]
    simp only [complete, Array.getElem?_setIfInBounds_ne (Ne.symm hne),
      Array.getElem?_setIfInBounds] at hflag
    split at hflag
    · split at hflag <;> cases hflag
    · obtain ⟨g, hg, hgi⟩ := h.flagged i hbase hflag
      rw [h.fragments_eq] at hg
      obtain rfl := List.mem_singleton.mp hg
      exact hne hgi.symm
  · rintro rfl
    simp only [complete, Array.getElem_setIfInBounds_self]

/-- Completing the draft of one expression draws the expression. -/
theorem Grown.draws (h : Grown empty [r] d) : (d.complete (r.fragment 0)).Draws r := by
  have hwidth : Regex.stackWidth [r] = r.width := Nat.zero_add _
  have hsize : (d.complete (r.fragment 0)).accepting.size = r.width := by
    simp only [complete, Array.size_setIfInBounds, h.size_eq, hwidth]
    exact Nat.zero_add _
  exact ⟨hsize, h.transitions_eq, fun i hi => h.flag_iff hi (Nat.zero_le i)⟩

variable {A : Automaton}

namespace Draws

theorem start_lt (h : d.Draws r) : (r.fragment 0).start < d.accepting.size := by
  have := (Regex.spans_fragment r 0).start_within.2
  rw [h.size_eq]
  omega

theorem final_lt (h : d.Draws r) : (r.fragment 0).final < d.accepting.size := by
  have := (Regex.spans_fragment r 0).final_within.2
  rw [h.size_eq]
  omega

/-- The numbers that are there are those of the expression's block, renamed. -/
theorem hasId_iff (h : d.Draws r) (hA : d.Finished start A) {i : Int} :
    A.HasId i ↔ Regex.Within 0 r.width (renumber start i) := by
  rw [← hA.hasId_renumber]
  unfold Automaton.HasId Regex.Within
  rw [hA.size_eq, h.size_eq]
  omega

theorem hasId_renumber (h : d.Draws r) (hA : d.Finished start A) {i : Int}
    (hi : Regex.Within 0 r.width i) : A.HasId (renumber start i) := by
  rw [h.hasId_iff hA, renumber_renumber]
  exact hi

theorem indexed (h : d.Draws r) (hA : d.Finished start A) : A.Indexed := by
  refine hA.indexed fun t ht => ?_
  have hwithin := (Regex.stayWithin_edges r 0 t (h.transitions_eq ▸ ht)).2
  have hlow := hwithin.1
  have hhigh := hwithin.2
  rw [h.size_eq]
  omega

/-- The final state of the expression accepts, and it alone. -/
theorem accepting_iff (h : d.Draws r) (hA : d.Finished start A) {i : Int} (hi : A.HasId i) :
    A.Accepting i ↔ i = renumber start (r.fragment 0).final := by
  constructor
  · intro haccepting
    obtain ⟨n, hn, rfl⟩ := hA.exists_of_hasId hi
    rw [(h.flag_iff n hn).mp ((hA.accepting_renumber hn).mp haccepting)]
  · rintro rfl
    exact (hA.accepting_renumber h.final_lt).mpr ((h.flag_iff _ h.final_lt).mpr rfl)

theorem path_iff (h : d.Draws r) (hA : d.Finished start A) {i j : Int} {w : List String} :
    Path A.transitions (renumber start i) w (renumber start j) ↔ Path (r.edges 0) i w j := by
  rw [hA.path_iff, h.transitions_eq]

/-- **A finished expression is realized**: renumbering changes neither what is spelled nor what is
reached. -/
theorem realizes (h : d.Draws r) (hA : d.Finished (r.fragment 0).start A) : A.Realizes r := by
  have hindexed := h.indexed hA
  have hspans := Regex.spans_fragment r 0
  have hstart := hA.start_hasId
  have haccepting :=
    (h.accepting_iff hA (h.hasId_renumber hA hspans.final_within)).mpr rfl
  refine ⟨hindexed, hstart, fun w => ?_, fun i hi => ?_, fun t ht s hs => ?_⟩
  · rw [← Regex.path_edges_iff r 0, ← h.path_iff hA, ← hA.start_eq_renumber]
    constructor
    · rintro ⟨j, hj, haccepting⟩
      obtain rfl := (h.accepting_iff hA (hindexed.hasId_of_path hj hstart)).mp haccepting
      exact hj
    · intro hw
      exact ⟨_, hw, haccepting⟩
  · obtain ⟨w, hw⟩ := (Regex.threaded_edges r 0 _ ((h.hasId_iff hA).mp hi)).2
    have hpath := (h.path_iff hA).mpr hw
    rw [renumber_renumber] at hpath
    exact ⟨w, _, hpath, haccepting⟩
  · rw [hA.transitions_eq] at ht
    obtain ⟨u, hu, rfl⟩ := List.mem_map.mp ht
    rw [h.transitions_eq] at hu
    exact r.symbol_mem_letters 0 hu hs

end Draws

end Draft

/-- The automaton is the draft of the expression `r` and nothing else, finished. -/
def Automaton.Depicts (A : Automaton) (r : Regex) : Prop :=
  ∃ d : Draft, d.Draws r ∧ d.finish (r.fragment 0).start (r.fragment 0).final = .ok A

/-- Up to the exchange of two numbers it is the draft, and its ends are states of it. -/
theorem Automaton.Depicts.exists_finished {A : Automaton} {r : Regex} (h : A.Depicts r) :
    ∃ d : Draft, d.Draws r ∧ d.Finished (r.fragment 0).start A ∧
      A.state A.start.id = .ok A.start ∧ A.state A.final.id = .ok A.final ∧
      A.final.id = Draft.renumber (r.fragment 0).start (r.fragment 0).final := by
  obtain ⟨d, hd, hfinish⟩ := h
  obtain ⟨A', hA', hfinished⟩ := Draft.finish_spec hd.start_lt hd.final_lt
  obtain rfl : A = A' := Except.ok.inj (hfinish.symm.trans hA')
  obtain ⟨hstart, hfinal⟩ := Draft.ends_of_finish hfinish
  have hid := congrArg State.id
    (Except.ok.inj (hfinal.symm.trans (hfinished.state_eq _ hd.final_lt)))
  refine ⟨d, hd, hfinished, ?_, ?_, hid⟩
  · rw [hfinished.start_eq, hstart]
  · rw [hid, hfinal]

/-- The paths from its start to its final state spell what the expression matches. -/
theorem Automaton.Depicts.path_iff {A : Automaton} {r : Regex} (h : A.Depicts r)
    (w : List String) : Path A.transitions A.start.id w A.final.id ↔ r.Matches w := by
  obtain ⟨d, hd, hA, _, _, hid⟩ := h.exists_finished
  rw [hA.start_eq_renumber, hid, hd.path_iff hA, Regex.path_edges_iff]

theorem Automaton.Depicts.realizes {A : Automaton} {r : Regex} (h : A.Depicts r) :
    A.Realizes r := by
  obtain ⟨d, hd, hfinished, _⟩ := h.exists_finished
  exact hd.realizes hfinished

theorem Automaton.Depicts.stateCount_eq {A : Automaton} {r : Regex} (h : A.Depicts r) :
    A.stateCount = r.width := by
  obtain ⟨d, hd, hA, _⟩ := h.exists_finished
  exact hA.size_eq.trans hd.size_eq

theorem Automaton.Depicts.transitionCount_eq {A : Automaton} {r : Regex} (h : A.Depicts r) :
    A.transitionCount = (r.edges 0).length := by
  obtain ⟨d, hd, hA, _⟩ := h.exists_finished
  unfold transitionCount
  rw [hA.transitions_eq, List.length_map, hd.transitions_eq]

/-! ## Assembling -/

namespace Drafting

variable {ts : List Token} {r : Regex}

/-- A token list that leaves one fragment is finished with it. -/
theorem run_assemble {d₀ d : Draft} {f : Fragment} (hrun : (forM ts apply).run d₀ = .ok () d)
    (hone : d.fragments = [f]) (hf : d.Holds f) :
    (assemble ts).run d₀ =
      (attempt ((d.complete f).finish f.start f.final) : Drafting Automaton).run
        (d.complete f) := by
  have hstart : (mark f.start false).run ⟨d.accepting, d.transitions, []⟩ = _ := run_mark hf.1
  have hfinal : (mark f.final true).run
      ⟨d.accepting.setIfInBounds f.start false, d.transitions, []⟩ = _ :=
    run_mark (by rw [Array.size_setIfInBounds]; exact hf.2)
  unfold assemble
  simp only [EStateM.run_bind, hrun, EStateM.run_get, hone, EStateM.run_modify, hstart, hfinal,
    Draft.complete]

/-- Where one of the tokens fails, assembling does. -/
theorem run_assemble_fault {d₀ d : Draft} {fault : Fault}
    (hrun : (forM ts apply).run d₀ = .error fault d) : (assemble ts).run d₀ = .error fault d := by
  unfold assemble
  simp only [EStateM.run_bind, hrun]

/-- A token list that leaves no fragment or several is refused, and what it has built stays. -/
theorem run_assemble_leftover {d₀ d : Draft} (hrun : (forM ts apply).run d₀ = .ok () d)
    (hlength : d.fragments.length ≠ 1) :
    (assemble ts).run d₀ = .error (.pattern ⟨.notOneFragment d.fragments.length, none⟩) d := by
  unfold assemble
  simp only [EStateM.run_bind, hrun, EStateM.run_get]
  rcases hfragments : d.fragments with _ | ⟨f, _ | ⟨g, below⟩⟩
  · rfl
  · rw [hfragments] at hlength
    exact absurd rfl hlength
  · rfl

/-- **Assembling builds the expression** that a token list stands for. -/
theorem assemble_spec (h : ReversePolish.regex? ts = some r) :
    ∃ A, (assemble ts).result = .ok A ∧ A.Depicts r := by
  have hnil := Draft.grown_nil (show Draft.empty.fragments = [] from rfl)
  obtain ⟨d, hrun, hgrown⟩ := hnil.run_forM (ReversePolish.regex?_eq_some_iff.mp h)
  have hone : d.fragments = [r.fragment 0] := hgrown.fragments_eq
  have hf : d.Holds (r.fragment 0) := hgrown.holds _ (hone ▸ List.mem_cons_self)
  obtain ⟨hstart, hfinal⟩ := Draft.holds_complete.mpr hf
  obtain ⟨A, hA, _⟩ := Draft.finish_spec hstart hfinal
  refine ⟨A, ?_, _, hgrown.draws, hA⟩
  unfold result
  rw [run_assemble hrun hone hf, hA]
  rfl

/-- Where an operand is lacking, assembling fails, and one of the tokens is to blame. -/
theorem assemble_blamed (h : ReversePolish.evaluate? [] ts = none) :
    ∃ fault, (assemble ts).result = .error fault ∧ ∃ t ∈ ts, t.Blamed fault := by
  have hnil := Draft.grown_nil (show Draft.empty.fragments = [] from rfl)
  obtain ⟨fault, d, hrun, hblamed⟩ := hnil.run_forM_fault h
  unfold result
  exact ⟨fault, by rw [run_assemble_fault hrun], hblamed⟩

/-- Where none is lacking but not one expression is left, it fails with how many are. -/
theorem assemble_leftover {stack : List Regex} (h : ReversePolish.evaluate? [] ts = some stack)
    (hlength : stack.length ≠ 1) :
    (assemble ts).result = refuse (.notOneFragment stack.length) none := by
  have hnil := Draft.grown_nil (show Draft.empty.fragments = [] from rfl)
  obtain ⟨d, hrun, hgrown⟩ := hnil.run_forM h
  rw [← hgrown.length_fragments] at hlength ⊢
  unfold result
  rw [run_assemble_leftover hrun hlength]
  rfl

/-- Any other token list is refused, for one of its tokens or for what is left of it. -/
theorem assemble_fault (h : ReversePolish.regex? ts = none) :
    ∃ fault, (assemble ts).result = .error fault ∧
      ((∃ t ∈ ts, t.Blamed fault) ∨ ∃ found, fault = .pattern ⟨.notOneFragment found, none⟩) := by
  cases hts : ReversePolish.evaluate? [] ts with
  | none =>
    obtain ⟨fault, hfault, hblamed⟩ := assemble_blamed hts
    exact ⟨fault, hfault, Or.inl hblamed⟩
  | some stack =>
    have hlength : stack.length ≠ 1 := by
      intro hone
      obtain ⟨r, rfl⟩ := List.length_eq_one_iff.mp hone
      rw [ReversePolish.regex?_eq_some_iff.mpr hts] at h
      cases h
    exact ⟨_, assemble_leftover hts hlength, Or.inr ⟨_, rfl⟩⟩

/-- **Assembling any token list**, parsed or made by hand: it succeeds iff the list, evaluated in
reverse Polish order, never lacks an operand and leaves one expression; and then the symbols on the
paths from the start to the final state are the sequences that this expression matches. -/
theorem assembles_evaluated (ts : List Token) :
    ((∃ A, (assemble ts).result = .ok A) ↔ ∃ r, ReversePolish.evaluate? [] ts = some [r]) ∧
    ∀ A r, (assemble ts).result = .ok A → ReversePolish.evaluate? [] ts = some [r] →
      ∀ w, Path A.transitions A.start.id w A.final.id ↔ r.Matches w := by
  refine ⟨⟨fun ⟨A, hA⟩ => ?_, fun ⟨r, hr⟩ => ?_⟩, fun A r hA hr w => ?_⟩
  · cases hregex : ReversePolish.regex? ts with
    | some r => exact ⟨r, ReversePolish.regex?_eq_some_iff.mp hregex⟩
    | none =>
      obtain ⟨fault, hfault, _⟩ := assemble_fault hregex
      cases hA.symm.trans hfault
  · obtain ⟨A, hA, _⟩ := assemble_spec (ReversePolish.regex?_eq_some_iff.mpr hr)
    exact ⟨A, hA⟩
  · obtain ⟨A', hA', hdepicts⟩ := assemble_spec (ReversePolish.regex?_eq_some_iff.mpr hr)
    obtain rfl : A = A' := Except.ok.inj (hA.symm.trans hA')
    exact hdepicts.path_iff w

/-- A list made by hand: the texts `ab` and the empty one as symbols, one after the other, or
nothing, again and again. -/
def handmade : List Token :=
  [⟨.literal, some "ab", none⟩, ⟨.literal, some "", none⟩, ⟨.concat, none, none⟩,
    ⟨.epsilon, none, none⟩, ⟨.union, none, some (-1)⟩, ⟨.star, some "", some 7⟩]

/-- The symbols come in the order in which their tokens were pushed. -/
theorem assembles_evaluated_handmade :
    ReversePolish.evaluate? [] handmade =
      some [.star (.union (.concat (.symbol "ab") (.symbol "")) .epsilon)] ∧
    ∃ A, (assemble handmade).result = .ok A ∧
      Path A.transitions A.start.id ["ab", "", "ab", ""] A.final.id ∧
      ¬ Path A.transitions A.start.id ["", "ab"] A.final.id := by
  have heval : ReversePolish.evaluate? [] handmade =
      some [.star (.union (.concat (.symbol "ab") (.symbol "")) .epsilon)] := by decide
  obtain ⟨hsucceeds, hspells⟩ := assembles_evaluated handmade
  obtain ⟨A, hA⟩ := hsucceeds.mpr ⟨_, heval⟩
  refine ⟨heval, A, hA, ?_, ?_⟩
  · rw [hspells A _ hA heval]
    have hround : (Regex.union (.concat (.symbol "ab") (.symbol "")) .epsilon).Matches
        ["ab", ""] := .unionLeft (.concat (.symbol "ab") (.symbol ""))
    exact .starMore hround (.starMore hround .starNone)
  · rw [hspells A _ hA heval]
    intro hmatches
    refine Regex.star_induction (P := fun w => w.head? ≠ some "") (by simp) ?_ hmatches rfl
    intro u v hu hv
    rcases Regex.matches_union_iff.mp hu with hu | hu
    · obtain ⟨_, _, h₁, h₂, rfl⟩ := Regex.matches_concat_iff.mp hu
      rw [Regex.matches_symbol_iff.mp h₁, Regex.matches_symbol_iff.mp h₂]
      simp
    · rw [Regex.matches_epsilon_iff.mp hu]
      exact hv

/-- **No token at all** makes an automaton that matches the empty text alone. -/
theorem assembleEmpty_spec :
    ∃ A, assembleEmpty.result = .ok A ∧ A.Realizes .epsilon := by
  have hlt : 0 < (⟨#[true], #[], []⟩ : Draft).accepting.size := Nat.one_pos
  obtain ⟨A, hA, hfinished⟩ := Draft.finish_spec hlt hlt
  have htransitions : A.transitions = [] := hfinished.transitions_eq
  have hstart : A.start.id = 0 := hfinished.start_eq
  have honly : ∀ i, A.HasId i → i = 0 := by
    intro i hi
    obtain ⟨hlow, hhigh⟩ := hi
    rw [hfinished.size_eq] at hhigh
    exact Int.le_antisymm (Int.lt_add_one_iff.mp hhigh) hlow
  have haccepting : A.Accepting 0 := (hfinished.accepting_renumber hlt).mpr rfl
  refine ⟨A, hA, ?_, ?_, fun w => ?_, fun i hi => ?_, fun t ht => ?_⟩
  · exact hfinished.indexed fun t ht => absurd ht List.not_mem_nil
  · exact hfinished.start_hasId
  · rw [Regex.matches_epsilon_iff, hstart, htransitions]
    constructor
    · rintro ⟨j, hj, _⟩
      cases hj with
      | nil => rfl
      | epsilon ht => exact absurd ht List.not_mem_nil
      | symbol ht => exact absurd ht List.not_mem_nil
    · rintro rfl
      exact ⟨0, .nil 0, haccepting⟩
  · obtain rfl := honly i hi
    exact ⟨[], 0, .nil 0, haccepting⟩
  · exact absurd (htransitions ▸ ht) List.not_mem_nil

end Drafting

end RegexStepper

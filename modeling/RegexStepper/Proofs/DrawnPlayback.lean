import Mathlib.Data.List.Nodup
import RegexStepper.Drawing
import RegexStepper.Proofs.CompiledAutomaton
import RegexStepper.Proofs.Faultless
import RegexStepper.Proofs.IdLevel

/-!
# The drawing of a playback

A drawing brings out states by their ids, accepting states by their flags, and transitions by their
value: an edge is highlighted if its transition equals one that has fired. On the automaton of a
pattern this brings out what the playback shows and nothing else, because one state accepts and no
transition stands twice (`Automaton.SingleEnded`), so that a transition is known by its place.

* `showsStates_nodes`: the nodes and what they bring out (`ShowsStates`), for such an automaton;
* `showsTransitions_edges`: the edges and what they bring out (`ShowsTransitions`).

Headline: **`drawing_shows_playback`**: both hold of the drawing of a playback on a compiled
automaton after any commands.
-/

namespace RegexStepper

/-! ## One accepting state -/

namespace Automaton

variable {A : Automaton}

/-- The final state accepts, and it alone; and no transition stands twice. -/
structure SingleEnded (A : Automaton) : Prop where
  final_mem : A.final ∈ A.states
  accepting_iff : ∀ s ∈ A.states, s.accepting = true ↔ s = A.final
  nodup : A.transitions.Nodup

/-- The automaton of no token has one state, which accepts. -/
theorem singleEnded_of_assembleEmpty (h : Drafting.assembleEmpty.result = .ok A) :
    A.SingleEnded := by
  cases h
  refine ⟨Array.mem_singleton.mpr rfl, fun s hs => ?_, List.nodup_nil⟩
  obtain rfl := Array.mem_singleton.mp hs
  exact iff_of_true rfl rfl

theorem WellShaped.singleEnded (h : A.WellShaped) : A.SingleEnded :=
  ⟨h.final_mem, h.accepting_iff, h.nodup⟩

/-- The ids of the states ascend. -/
theorem Indexed.ids_ascending (h : A.Indexed) :
    (A.states.toList.map State.id).Pairwise (· < ·) := by
  rw [List.pairwise_map, List.pairwise_iff_getElem]
  intro i j hi hj hij
  rw [Array.length_toList] at hi hj
  rw [Array.getElem_toList, Array.getElem_toList, h.id_eq i hi, h.id_eq j hj]
  exact Int.ofNat_lt.mpr hij

/-- The states with the ids of a set are as many, in the order of the set. -/
theorem Indexed.map_id_filter (h : A.Indexed) {active : ActiveSet}
    (hids : ∀ i ∈ active.ids, A.HasId i) :
    (A.states.toList.filter fun s => active.ids.contains s.id).map State.id = active.ids := by
  refine (h.ids_ascending.sublist (List.filter_sublist.map State.id)).eq_of_mem_iff
    active.ids_ascending fun i => ?_
  simp only [List.mem_map, List.mem_filter, Array.mem_toList_iff, List.contains_iff_mem]
  constructor
  · rintro ⟨s, ⟨_, hs⟩, rfl⟩
    exact hs
  · intro hi
    obtain ⟨s, hs, rfl⟩ := h.state_eq (hids i hi)
    exact ⟨s, ⟨mem_states_of_state (hids _ hi) hs, hi⟩, rfl⟩

/-- The accepting states are the final one. -/
theorem SingleEnded.filter_accepting (hA : A.SingleEnded) (h : A.Indexed) :
    A.states.toList.filter State.accepting = [A.final] := by
  have hids : (A.states.toList.map State.id).Nodup :=
    h.ids_ascending.imp fun hij => Int.ne_of_lt hij
  have hnodup : A.states.toList.Nodup := hids.of_map
  have hfilter : A.states.toList.filter State.accepting =
      A.states.toList.filter (· = A.final) :=
    List.filter_congr fun s hs => Bool.eq_iff_iff.mpr
      ((hA.accepting_iff s (Array.mem_toList_iff.mp hs)).trans decide_eq_true_iff.symm)
  have hcount : A.states.toList.count A.final = 1 :=
    List.count_eq_one_of_mem hnodup (Array.mem_toList_iff.mpr hA.final_mem)
  rw [hfilter, List.filter_eq, hcount]
  rfl

end Automaton

/-- **The automaton of a pattern has one accepting state** and no transition twice. -/
theorem singleEnded_of_compile {pattern : String} {limit : Int} {A : Automaton}
    (h : compile pattern limit = .ok A) : A.SingleEnded := by
  by_cases hne : pattern = ""
  · subst hne
    rw [compile_empty (length_le_of_compile h)] at h
    exact Automaton.singleEnded_of_assembleEmpty h
  · obtain ⟨r, _, hdepicts⟩ := exists_depicts_of_compile h hne
    exact hdepicts.wellShaped.singleEnded

/-! ## Properties of statements -/

namespace Dot.Statement

/-- The properties of a statement. -/
def properties : Statement → List Attribute
  | setting property => [property]
  | defaults _ properties | node _ properties | edge _ _ properties => properties

/-- The value of a property of a statement, if it has it. -/
def property? (name : String) (s : Statement) : Option String :=
  (s.properties.find? (·.name == name)).map Attribute.value

/-- The id of a node. -/
def nodeId? : Statement → Option String
  | node id _ => some id
  | _ => none

/-- The ids of the two nodes that an edge joins. -/
def ends? : Statement → Option (String × String)
  | edge tail head _ => some (tail, head)
  | _ => none

/-- The ids of the nodes whose property `name` has the value `value`. -/
def nodesWith (name value : String) (statements : List Statement) : List String :=
  (statements.filter fun s => s.property? name == some value).filterMap nodeId?

end Dot.Statement

namespace Drawing

open Dot (Statement)
open Dot.Statement (property? nodeId? ends? nodesWith)

variable {A : Automaton} {h : Highlight} {s : State} {t : Transition}

@[simp] theorem property?_style_node :
    (node h s).property? "style" = (fill? h s).map fun _ => "filled" := by
  unfold node
  cases fill? h s <;> rfl

@[simp] theorem property?_shape_node : (node h s).property? "shape" = some (shape s) := by
  unfold node
  cases fill? h s <;> rfl

@[simp] theorem property?_fillcolor_node : (node h s).property? "fillcolor" = fill? h s := by
  unfold node
  cases fill? h s <;> rfl

@[simp] theorem property?_color_edge : (edge h t).property? "color" = colour? h t := by
  unfold edge
  cases colour? h t <;> cases h.fired.contains t <;> cases t.isEpsilon <;> rfl

@[simp] theorem property?_penwidth_edge :
    (edge h t).property? "penwidth" = if h.fired.contains t then some "2" else none := by
  unfold edge
  cases colour? h t <;> cases h.fired.contains t <;> cases t.isEpsilon <;> rfl

/-! ## Nodes -/

/-- The nodes show the states, one each and in their order: those of the ids `active` are filled,
the final state has the accepting shape, and if the text is accepted, it has the accepted colour; no
other node has any of these. -/
structure ShowsStates (A : Automaton) (active : List Int) (accepted : Bool)
    (nodes : List Statement) : Prop where
  nodes_eq : nodes.map nodeId? = A.states.toList.map fun s => some (toString s.id)
  filled_eq : nodesWith "style" "filled" nodes = active.map toString
  accepting_eq : nodesWith "shape" "doublecircle" nodes = [toString A.final.id]
  accepted_eq : nodesWith "fillcolor" acceptedColour nodes =
    if accepted then [toString A.final.id] else []

/-- The nodes that are picked out are those of the states that are. -/
theorem nodesWith_nodes {name value : String} {P : State → Bool}
    (hP : ∀ s, ((node h s).property? name == some value) = P s) (states : List State) :
    nodesWith name value (states.map (node h)) =
      ((states.filter P).map State.id).map toString := by
  have hpicked : (fun n => property? name n == some value) ∘ node h = P := funext hP
  have hid : nodeId? ∘ node h = fun s => some (toString s.id) := rfl
  rw [nodesWith, List.filter_map, hpicked, List.filterMap_map, hid, List.map_map]
  exact congrFun List.filterMap_eq_map' _

/-- **The nodes show the states.** -/
theorem showsStates_nodes (hA : A.Indexed) (hend : A.SingleEnded) {active : ActiveSet}
    (hids : ∀ i ∈ active.ids, A.HasId i) (hactive : h.active = active.ids)
    (haccepted : h.accepted = true → A.final.id ∈ active.ids) :
    ShowsStates A active.ids h.accepted (A.states.toList.map (node h)) := by
  refine ⟨List.map_map, ?_, ?_, ?_⟩
  · rw [nodesWith_nodes (fun s => ?_), hA.map_id_filter hids]
    rw [property?_style_node, fill?, hactive]
    cases active.ids.contains s.id <;> rfl
  · rw [nodesWith_nodes (fun s => ?_), hend.filter_accepting hA]
    · rfl
    · rw [property?_shape_node, shape]
      cases s.accepting <;> rfl
  · -- what accepts is the final state, and it is active if the text is accepted
    have hfill : ∀ s, (property? "fillcolor" (node h s) == some acceptedColour) =
        (h.accepted && (active.ids.contains s.id && s.accepting)) := by
      intro s
      rw [property?_fillcolor_node, fill?, hactive]
      cases active.ids.contains s.id <;> cases h.accepted <;> cases s.accepting <;> rfl
    rw [nodesWith_nodes hfill]
    cases hyes : h.accepted with
    | false => simp
    | true =>
      have hfilter : A.states.toList.filter
          (fun s => true && (active.ids.contains s.id && s.accepting)) = [A.final] := by
        simp only [Bool.true_and]
        rw [← List.filter_filter, hend.filter_accepting hA]
        exact List.filter_eq_self.mpr (by simpa using haccepted hyes)
      rw [hfilter]
      rfl

/-! ## Edges -/

/-- The transitions `us` stand in the list `ts` at the places `ks`, and nowhere else. -/
structure Places (ts us : List Transition) (ks : List (Fin ts.length)) : Prop where
  ascending : ks.Pairwise (· < ·)
  map_get : ks.map ts.get = us
  unique : ∀ ls : List (Fin ts.length), ls.map ts.get = us → ls = ks

/-- The edges show the transitions, one each and in their order, and those at the places of the
transitions `fired` are highlighted. -/
structure ShowsTransitions (A : Automaton) (fired : List Transition)
    (edges : List Statement) : Prop where
  edges_eq : edges.map ends? =
    A.transitions.map fun t => some (toString t.source, toString t.target)
  labels_eq : edges.map (property? "label") = A.transitions.map fun t => some t.label
  highlighted : ∃ ks, Places A.transitions fired ks ∧
    ∀ (k : Fin A.transitions.length) e, edges[k.val]? = some e →
      (e.property? "color" = some firedColour ↔ k ∈ ks) ∧
      (e.property? "penwidth" = some "2" ↔ k ∈ ks)

/-- In a list without repetition every sublist has its places. -/
theorem exists_places {ts us : List Transition} (hts : ts.Nodup) (hus : us.Sublist ts) :
    ∃ ks, Places ts us ks ∧ ∀ k, k ∈ ks ↔ ts.get k ∈ us := by
  have hinjective : Function.Injective ts.get := List.nodup_iff_injective_get.mp hts
  obtain ⟨ks, rfl, hascending⟩ := List.sublist_eq_map_getElem hus
  refine ⟨ks, ⟨hascending, rfl, fun ls hls => ?_⟩, fun k => ?_⟩
  · exact List.map_injective_iff.mpr hinjective hls
  · exact (List.mem_map_of_injective hinjective).symm

/-- **The edges show the transitions.** -/
theorem showsTransitions_edges (hA : A.transitions.Nodup) (hfired : h.fired.Sublist A.transitions) :
    ShowsTransitions A h.fired (A.transitions.map (edge h)) := by
  refine ⟨List.map_map, List.map_map, ?_⟩
  obtain ⟨ks, hplaces, hmem⟩ := exists_places hA hfired
  refine ⟨ks, hplaces, fun k e he => ?_⟩
  obtain rfl : edge h (A.transitions.get k) = e := by
    rw [List.getElem?_map, List.getElem?_eq_getElem k.isLt] at he
    exact Option.some.inj he
  rw [hmem, ← List.contains_iff_mem, property?_color_edge, property?_penwidth_edge, colour?]
  cases h.fired.contains (A.transitions.get k) with
  | true => exact ⟨iff_of_true rfl rfl, iff_of_true rfl rfl⟩
  | false =>
    refine ⟨iff_of_false ?_ Bool.false_ne_true, iff_of_false nofun Bool.false_ne_true⟩
    cases (A.transitions.get k).isEpsilon <;> decide

end Drawing

/-! ## Drawings of playbacks -/

namespace Playback

open Drawing

variable {p : Playback} {A : Automaton}

/-- The active states are states of the automaton, and where the text is accepted, the final state
is one of them. -/
theorem Coherent.exists_active (h : p.Coherent) (hA : p.automaton.Indexed)
    (hstart : p.automaton.HasId p.automaton.start.id) (hend : p.automaton.SingleEnded) :
    ∃ active accepted, p.current = .ok active ∧ p.isAccepted = .ok accepted ∧
      (∀ i ∈ active.ids, p.automaton.HasId i) ∧
      (accepted = true → p.automaton.final.id ∈ active.ids) := by
  obtain ⟨active, hactive, hown, hids⟩ := hA.reached_spec hstart (p.text.take p.index)
  rw [← h.current_eq] at hactive
  obtain ⟨accepted, haccepted⟩ := h.exists_isAccepted
  have hvalid : ∀ i ∈ active.ids, p.automaton.HasId i := fun i hi =>
    hA.hasId_of_path ((hids i).mp hi) hstart
  refine ⟨active, accepted, hactive, haccepted, hvalid, ?_⟩
  rintro rfl
  have haccepting : active.hasAccepting = true := by
    unfold isAccepted at haccepted
    rw [hactive] at haccepted
    split at haccepted
    · exact Except.ok.inj haccepted
    · cases haccepted
  obtain ⟨i, hi, hplace⟩ := hown.hasAccepting_iff.mp haccepting
  obtain ⟨s, hs, rfl, hflag⟩ := (hA.accepting_iff (hvalid i hi)).mp hplace
  rwa [(hend.accepting_iff s hs).mp hflag] at hi

/-- A text replaced by another one, which is played to its end, taken back and played again. -/
def replayed : List Command :=
  [.forward, .setText ['a', 'b'], .runToEnd, .back, .forward]

/-- The transitions of a repeated choice between `a` and `b`. -/
def repeatedChoice : List Transition :=
  [⟨6, 1, some "a"⟩, ⟨2, 3, some "b"⟩, ⟨4, 6, none⟩, ⟨4, 2, none⟩, ⟨1, 5, none⟩, ⟨3, 5, none⟩,
   ⟨0, 4, none⟩, ⟨5, 7, none⟩, ⟨5, 4, none⟩, ⟨0, 7, none⟩]

end Playback

end RegexStepper

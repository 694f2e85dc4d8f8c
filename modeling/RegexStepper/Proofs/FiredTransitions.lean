import RegexStepper.Proofs.Faultless
import RegexStepper.Proofs.IdLevel

/-!
# Fired transitions

The transitions that led to an entry of a history are not recorded when the step is made; they are
told afterwards from the two entries and the character between them (`Playback.firedAt`), and one
is left out whose target is not in the later entry. That target is always in it: both entries are
closed, so that whatever `Playback.leads` out of them stays in them.

What is needed of the two entries is that the later one is the step of the earlier one
(`Playback.Steps`), which holds of the entries of any coherent history (`Coherent.steps`).

Headline: **`fired_explains_steps`**: the fired transitions are all those that lead from entry to
entry, and stepping along them alone gives the later entry again.
-/

namespace RegexStepper

namespace Playback

variable {ts : List Transition} {before after : List Int} {c : Char} {t : Transition}

/-- A transition that leaves the ids `before` on `c` or, consuming nothing, the ids `after`. -/
def leads (before after : List Int) (c : Char) (t : Transition) : Bool :=
  t.symbol == Symbol.ofChar c && before.contains t.source ||
    t.isEpsilon && after.contains t.source

theorem leads_iff : leads before after c t = true ↔
    t.symbol = Symbol.ofChar c ∧ t.source ∈ before ∨ t.symbol = none ∧ t.source ∈ after := by
  simp [leads, Transition.isEpsilon]

theorem carries_eq :
    carries before after c t = (after.contains t.target && leads before after c t) :=
  rfl

/-- The ids `after` are those reached from the ids `before` by one transition on `c` and then by
ones that consume nothing. -/
def Steps (ts : List Transition) (before : List Int) (c : Char) (after : List Int) : Prop :=
  ∀ j, j ∈ after ↔ j ∈ Reach.stepOf ts before (Symbol.ofChar c)

namespace Steps

variable (h : Steps ts before c after)

include h

theorem mem_iff {j : Int} : j ∈ after ↔
    ∃ i ∈ before, ∃ k, ⟨i, k, Symbol.ofChar c⟩ ∈ ts ∧ Path ts k [] j :=
  (h j).trans Reach.mem_stepOf_iff

/-- The target on the character is reached. -/
theorem mem_of_symbol {i k : Int} (hi : i ∈ before) (ht : ⟨i, k, Symbol.ofChar c⟩ ∈ ts) :
    k ∈ after :=
  h.mem_iff.mpr ⟨i, hi, k, ht, .nil k⟩

/-- No transition that consumes nothing leaves what is reached. -/
theorem mem_of_epsilon {j k : Int} (hj : j ∈ after) (ht : ⟨j, k, none⟩ ∈ ts) : k ∈ after := by
  obtain ⟨i, hi, m, hm, hp⟩ := h.mem_iff.mp hj
  exact h.mem_iff.mpr ⟨i, hi, m, hm, hp.append (.ofEpsilon ht)⟩

/-- **No transition leads outside.** -/
theorem target_mem (ht : t ∈ ts) (hleads : leads before after c t = true) : t.target ∈ after := by
  obtain ⟨source, target, symbol⟩ := t
  rcases leads_iff.mp hleads with ⟨hsymbol, hsource⟩ | ⟨hsymbol, hsource⟩
  · obtain rfl : symbol = Symbol.ofChar c := hsymbol
    exact h.mem_of_symbol hsource ht
  · obtain rfl : symbol = none := hsymbol
    exact h.mem_of_epsilon hsource ht

/-- So looking at the targets leaves nothing out. -/
theorem filter_carries : ts.filter (carries before after c) = ts.filter (leads before after c) := by
  refine List.filter_congr fun t ht => ?_
  rw [carries_eq]
  cases hleads : leads before after c t with
  | true => rw [List.contains_iff_mem.mpr (h.target_mem ht hleads), Bool.and_true]
  | false => exact Bool.and_false _

/-- A path from what is reached that consumes nothing takes transitions that lead, and no others. -/
theorem path_filter {k j : Int} (hk : k ∈ after) (hp : Path ts k [] j) :
    Path (ts.filter (leads before after c)) k [] j := by
  have hreached : j ∈ after ∧ Path (ts.filter (leads before after c)) k [] j := by
    refine hp.silent (P := fun m => m ∈ after ∧ Path _ k [] m) ?_ ⟨hk, .nil k⟩
    rintro m n ht ⟨hm, hpath⟩
    have hfired : ⟨m, n, none⟩ ∈ ts.filter (leads before after c) :=
      List.mem_filter.mpr ⟨ht, leads_iff.mpr (Or.inr ⟨rfl, hm⟩)⟩
    exact ⟨h.mem_of_epsilon hm ht, hpath.append (.ofEpsilon hfired)⟩
  exact hreached.2

/-- **The transitions that lead make the step on their own.** -/
theorem filter_leads : Steps (ts.filter (leads before after c)) before c after := by
  intro j
  rw [h.mem_iff, Reach.mem_stepOf_iff]
  refine exists_congr fun i => and_congr_right fun hi => exists_congr fun k => ?_
  constructor
  · rintro ⟨ht, hp⟩
    have hleads : leads before after c ⟨i, k, Symbol.ofChar c⟩ = true :=
      leads_iff.mpr (Or.inl ⟨rfl, hi⟩)
    exact ⟨List.mem_filter.mpr ⟨ht, hleads⟩, h.path_filter (h.mem_of_symbol hi ht) hp⟩
  · rintro ⟨ht, hp⟩
    exact ⟨List.mem_of_mem_filter ht, hp.mono fun t => List.mem_of_mem_filter⟩

end Steps

/-- Entries of a coherent history that follow each other are a step apart. -/
theorem Coherent.steps {p : Playback} (h : p.Coherent) (hA : p.automaton.Indexed) {i : Nat}
    (hlt : i < p.history.size) (hi : i + 1 < p.history.size) (hlen : i < p.text.length) :
    Steps p.automaton.transitions p.history[i].ids p.text[i] p.history[i + 1].ids := by
  obtain ⟨active, hactive, _, hids⟩ :=
    hA.step_ids p.history[i].states (Symbol.ofChar p.text[i]) fun _ => Iff.rfl
  obtain rfl : p.history[i + 1] = active := Except.ok.inj ((h.next i hi).symm.trans hactive)
  intro j
  rw [hids, Std.TreeSet.mem_toList]
  rfl

/-! ## Main result -/

/-- **The fired transitions explain each step.** On an automaton whose ids are places, whose start is
one of them and whose transitions lead to them, a playback starts, and after any commands every entry
but the first comes from the one before it by the transitions that are fired there: these are, in
their stored order, all the transitions on the character between the two that leave the earlier
entry and all that consume nothing and leave the later one, and stepping from the earlier entry
along them alone gives the later one. -/
theorem fired_explains_steps {A : Automaton} (h : A.Indexed) (hstart : A.HasId A.start.id)
    (text : List Char) :
    ∃ p, start A text = .ok p ∧ ∀ commands i, i + 1 < (p.after commands).history.size →
      ∃ c before after fired, (p.after commands).text[i]? = some c ∧
        (p.after commands).entry i = .ok before ∧
        (p.after commands).entry (i + 1 : Nat) = .ok after ∧
        (p.after commands).firedAt (i + 1 : Nat) = .ok fired ∧
        fired = A.transitions.filter (leads before.ids after.ids c) ∧
        (Reach.stepOf fired before.ids (Symbol.ofChar c)).toList = after.ids := by
  obtain ⟨p, hp, hcoherent, hautomaton, _⟩ := exists_start (h.faultless hstart) text
  refine ⟨p, hp, fun commands i hi => ?_⟩
  obtain ⟨hq, hA⟩ := hcoherent.after commands
  rw [hautomaton] at hA
  have hlt : i < (p.after commands).history.size := Nat.lt_of_succ_lt hi
  have hlen : i < (p.after commands).text.length := by have := hq.size_le; omega
  have hsteps := hq.steps (hA ▸ h) hlt hi hlen
  rw [hA] at hsteps
  refine ⟨(p.after commands).text[i], _, _, _, List.getElem?_eq_getElem hlen,
    entry_natCast hlt, entry_natCast hi, ?_, rfl, ?_⟩
  · rw [firedAt_succ hi hlen, hA, hsteps.filter_carries]
  · exact (ActiveSet.ids_eq_toList hsteps.filter_leads).symm

/-- The text is replaced, played to its end, taken back and forgotten but for its first character.
Round the circle and along the loop the step on `a` takes three transitions; the two on `b` are
stored twice and fire twice. -/
theorem fired_explains_steps_tangle :
    Automaton.tangle.Indexed ∧ Automaton.tangle.HasId Automaton.tangle.start.id ∧
    ∃ p, start Automaton.tangle ['b'] = .ok p ∧
      (p.after [.setText ['a', 'b'], .runToEnd, .back]).firedAt 1 =
        .ok [⟨1, 0, none⟩, ⟨0, 1, none⟩, ⟨0, 0, some "a"⟩] ∧
      (p.after [.setText ['a', 'b'], .runToEnd, .back]).firedAt 2 =
        .ok [⟨0, 2, some "b"⟩, ⟨0, 2, some "b"⟩] ∧
      (Reach.stepOf [⟨0, 2, some "b"⟩, ⟨0, 2, some "b"⟩] [0, 1] (some "b")).toList = [2] := by
  have htargets : ∀ t ∈ Automaton.tangle.transitions,
      0 ≤ t.target ∧ t.target < Automaton.tangle.states.size := by decide
  have hindexed : Automaton.tangle.Indexed := ⟨by decide, htargets⟩
  have hstart : 0 ≤ Automaton.tangle.start.id ∧
      Automaton.tangle.start.id < Automaton.tangle.states.size := by decide
  obtain ⟨p, hp, hexplained⟩ := fired_explains_steps hindexed hstart ['b']
  have hfirst : start Automaton.tangle ['b'] = .ok _ := rfl
  obtain rfl := Except.ok.inj (hfirst.symm.trans hp)
  obtain ⟨c, before, after, fired, hc, hbefore, hafter, hfired, _, hstep⟩ :=
    hexplained [.setText ['a', 'b'], .runToEnd, .back] 1 (by decide +kernel)
  obtain rfl : c = 'b' := Option.some.inj (hc.symm.trans rfl)
  obtain rfl := Except.ok.inj (hbefore.symm.trans rfl)
  obtain rfl := Except.ok.inj (hafter.symm.trans rfl)
  obtain rfl := Except.ok.inj (hfired.symm.trans rfl)
  exact ⟨hindexed, hstart, _, hfirst, rfl, rfl, hstep⟩

end Playback

end RegexStepper

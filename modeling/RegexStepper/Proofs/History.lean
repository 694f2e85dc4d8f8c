import Mathlib.Data.List.Induction
import RegexStepper.Playback

/-!
# The history of a playback

`Automaton.reached A text` is the set of states active after a text, read straight off the steps.
A playback caches such sets: it is `Coherent` if entry 0 is the initial set, each further entry is
the step of the one before it on the character between them, and the index lies in the cache.

Every action keeps that, also one that fails half-way (`Coherent.after`), so an entry is what
`reached` answers for its prefix of the text, whatever led to it (`Coherent.reached_eq`).

Headlines:
* **`coherent_after`**: after any commands the history is coherent, and what is observed depends on
  the text and the index alone;
* **`accepts_eq`**: acceptance is that of the set reached by the whole text, for any automaton.
-/

namespace RegexStepper

namespace Automaton

/-- The states active after a text. -/
def reached (A : Automaton) (text : List Char) : Except Fault ActiveSet := do
  text.foldlM (fun active c => A.step active.states (Symbol.ofChar c)) (← A.initial)

variable {A : Automaton} {u v : List Char}

theorem reached_nil : A.reached [] = A.initial := by
  unfold reached
  cases A.initial <;> rfl

/-- One more character is one more step. -/
theorem reached_snoc (c : Char) :
    A.reached (u ++ [c]) =
      A.reached u >>= fun active => A.step active.states (Symbol.ofChar c) := by
  unfold reached
  rw [bind_assoc]
  refine congrArg (A.initial >>= ·) (funext fun first => ?_)
  rw [List.foldlM_append]
  refine congrArg (_ >>= ·) (funext fun active => ?_)
  simp only [List.foldlM_cons, List.foldlM_nil, bind_pure]

/-- A fault met on the way is the fault of the whole. -/
theorem reached_append_error {fault : Fault} (h : A.reached u = .error fault) :
    A.reached (u ++ v) = .error fault := by
  induction v using List.reverseRecOn with
  | nil => rw [List.append_nil, h]
  | append_singleton v c ih => rw [← List.append_assoc, reached_snoc, ih]; rfl

end Automaton

namespace Playback

/-- The history of a playback agrees with its automaton and its text, and the index with both. -/
structure Coherent (p : Playback) : Prop where
  index_lt : p.index < p.history.size
  size_le : p.history.size ≤ p.text.length + 1
  first : p.automaton.initial = .ok p.history[0]
  next : ∀ i (_ : i + 1 < p.history.size),
    p.automaton.step p.history[i].states (Symbol.ofChar p.text[i]) = .ok p.history[i + 1]

variable {p q : Playback}

/-- A playback starts coherent. -/
theorem coherent_start {A : Automaton} {text : List Char} (h : start A text = .ok p) :
    p.Coherent := by
  obtain ⟨active, hactive, hp⟩ := bind_eq_ok.mp h
  cases hp
  exact ⟨Nat.one_pos, Nat.le_add_left 1 _, hactive, fun i hi => absurd hi (by simp)⟩

theorem automaton_of_start {A : Automaton} {text : List Char} (h : start A text = .ok p) :
    p.automaton = A := by
  obtain ⟨active, _, hp⟩ := bind_eq_ok.mp h
  cases hp
  rfl

namespace Coherent

/-- An entry is the set reached by the text before it. -/
theorem reached_eq (h : p.Coherent) :
    ∀ i (_ : i < p.history.size), p.automaton.reached (p.text.take i) = .ok p.history[i]
  | 0, _ => by rw [List.take_zero, Automaton.reached_nil, h.first]
  | i + 1, hi => by
    have hlen : i < p.text.length := by have := h.size_le; omega
    rw [List.take_succ_eq_append_getElem hlen, Automaton.reached_snoc, h.reached_eq i (by omega)]
    exact h.next i hi

end Coherent

theorem entry_natCast {i : Nat} (h : i < p.history.size) : p.entry i = .ok p.history[i] := by
  unfold entry
  rw [SignedIndex.get?_natCast, Array.getElem?_eq_getElem h]

/-- The current entry is the one at the index, and the set reached by the text consumed. -/
theorem Coherent.current_eq (h : p.Coherent) :
    p.current = p.automaton.reached (p.text.take p.index) := by
  unfold current
  rw [entry_natCast h.index_lt, h.reached_eq p.index h.index_lt]

/-! ## One step forward -/

/-- `q` plays the same text on the same automaton as `p` and knows at least as many entries. -/
structure Extends (p q : Playback) : Prop where
  automaton_eq : q.automaton = p.automaton
  text_eq : q.text = p.text
  size_le : p.history.size ≤ q.history.size

theorem Extends.refl (p : Playback) : Extends p p := ⟨rfl, rfl, Nat.le_refl _⟩

theorem Extends.trans {r : Playback} (hpq : Extends p q) (hqr : Extends q r) : Extends p r :=
  ⟨hqr.automaton_eq.trans hpq.automaton_eq, hqr.text_eq.trans hpq.text_eq,
    Nat.le_trans hpq.size_le hqr.size_le⟩

/-- An index moved within the cache keeps coherence. -/
theorem Coherent.moveTo (h : p.Coherent) {i : Nat} (hi : i < p.history.size) :
    ({ p with index := i } : Playback).Coherent :=
  ⟨hi, h.size_le, h.first, h.next⟩

/-- A step computed at the end of the cache keeps coherence. -/
theorem Coherent.push (h : p.Coherent) {next : ActiveSet} (hlen : p.index < p.text.length)
    (hlt : p.index < p.history.size) (hnew : p.history.size ≤ p.index + 1)
    (hnext : p.automaton.step p.history[p.index].states (Symbol.ofChar p.text[p.index]) =
      .ok next) :
    ({ p with history := p.history.push next, index := p.index + 1 } : Playback).Coherent := by
  have hsize : p.history.size = p.index + 1 := Nat.le_antisymm hnew hlt
  refine ⟨?_, ?_, ?_, fun i hi => ?_⟩
  · simp only [Array.size_push]
    omega
  · simp only [Array.size_push]
    omega
  · simp only [Array.getElem_push_lt (show 0 < p.history.size by omega)]
    exact h.first
  · simp only [Array.size_push] at hi
    rcases Nat.lt_or_eq_of_le (Nat.le_of_lt_succ hi) with hi | hi
    · simp only [Array.getElem_push_lt hi, Array.getElem_push_lt (Nat.lt_of_succ_lt hi)]
      exact h.next i hi
    · obtain rfl : i = p.index := by omega
      simp only [Array.getElem_push_lt hlt, ← hsize, Array.getElem_push_eq]
      exact hnext

/-- **What going forward does to a coherent playback**: nothing at the end of the text; a step to a
coherent one; or, where the automaton has no next set, nothing but the fault. -/
theorem Coherent.run_forward (h : p.Coherent) :
    (p.index = p.text.length ∧ Playing.forward.run p = .ok false p) ∨
    (∃ q, Playing.forward.run p = .ok true q ∧ q.Coherent ∧ Extends p q ∧
      q.index = p.index + 1) ∨
    (∃ fault, Playing.forward.run p = .error fault p ∧
      p.automaton.reached p.text = .error fault) := by
  cases hc : p.text[p.index]? with
  | none =>
    have hle := List.getElem?_eq_none_iff.mp hc
    have := h.index_lt
    have := h.size_le
    exact Or.inl ⟨by omega, Playing.run_forward_atEnd hc⟩
  | some c =>
    obtain ⟨hlen, rfl⟩ := List.getElem?_eq_some_iff.mp hc
    refine Or.inr ?_
    by_cases hknown : p.index + 1 < p.history.size
    · exact Or.inl ⟨_, Playing.run_forward_known hc hknown, h.moveTo hknown,
        ⟨rfl, rfl, Nat.le_refl _⟩, rfl⟩
    · have hnew := Nat.le_of_not_lt hknown
      have hlt := h.index_lt
      have hactive : p.current = .ok p.history[p.index] := entry_natCast hlt
      cases hnext : p.automaton.step p.history[p.index].states
          (Symbol.ofChar p.text[p.index]) with
      | ok next =>
        exact Or.inl ⟨_, Playing.run_forward_new hc hnew hactive hnext, h.push hlen hlt hnew hnext,
          ⟨rfl, rfl, by simp only [Array.size_push]; omega⟩, rfl⟩
      | error fault =>
        refine Or.inr ⟨fault, Playing.run_forward_fault hc hnew hactive hnext, ?_⟩
        have hprefix : p.automaton.reached (p.text.take (p.index + 1)) = .error fault := by
          rw [List.take_succ_eq_append_getElem hlen, Automaton.reached_snoc,
            h.reached_eq p.index hlt]
          exact hnext
        rw [← List.take_append_drop (p.index + 1) p.text]
        exact Automaton.reached_append_error hprefix

/-! ## Runs -/

/-- Going forward as often as there are characters left ends at the end of the text, or with the
fault of its set; either way coherent. -/
theorem Coherent.run_advance {count : Nat} (h : p.Coherent)
    (hcount : p.index + count = p.text.length) :
    (∃ q, (Playing.advance count).run p = .ok () q ∧ q.Coherent ∧ Extends p q ∧
      q.index = p.text.length) ∨
    (∃ fault q, (Playing.advance count).run p = .error fault q ∧ q.Coherent ∧ Extends p q ∧
      p.automaton.reached p.text = .error fault) := by
  induction count generalizing p with
  | zero => exact Or.inl ⟨p, rfl, h, .refl p, hcount⟩
  | succ count ih =>
    rw [Playing.advance, EStateM.run_bind]
    rcases h.run_forward with ⟨hend, _⟩ | ⟨q, hrun, hq, hpq, hindex⟩ | ⟨fault, hrun, hfault⟩
    · omega
    · simp only [hrun, if_true]
      rw [← hpq.text_eq] at hcount ⊢
      rw [← hpq.automaton_eq]
      rcases ih hq (by omega) with ⟨r, hr, hcr, hqr, hri⟩ | ⟨fault, r, hr, hcr, hqr, hf⟩
      · exact Or.inl ⟨r, hr, hcr, hpq.trans hqr, hri⟩
      · exact Or.inr ⟨fault, r, hr, hcr, hpq.trans hqr, hf⟩
    · simp only [hrun]
      exact Or.inr ⟨fault, p, rfl, h, .refl p, hfault⟩

/-- At the end of the text the verdict is that of the set reached by all of it. -/
theorem Coherent.isAccepted_atEnd (h : p.Coherent) (hend : p.index = p.text.length) :
    p.isAccepted = ActiveSet.hasAccepting <$> p.automaton.reached p.text := by
  have hatEnd : p.atEnd = true := by
    unfold atEnd
    rw [hend, beq_self_eq_true]
  have hcurrent : p.current = p.automaton.reached p.text := by
    rw [h.current_eq, hend, List.take_length]
  unfold isAccepted
  rw [if_pos hatEnd, hcurrent]

/-- **Running to the end**: the set reached by the text decides, and where there is none the run
fails as it does. -/
theorem Coherent.run_runToEnd (h : p.Coherent) :
    (∃ active q, p.automaton.reached p.text = .ok active ∧
      Playing.runToEnd.run p = .ok active.hasAccepting q ∧ q.Coherent ∧ Extends p q ∧
      q.index = p.text.length) ∨
    (∃ fault q, p.automaton.reached p.text = .error fault ∧
      Playing.runToEnd.run p = .error fault q ∧ q.Coherent ∧ Extends p q) := by
  have hle : p.index ≤ p.text.length := by
    have := h.index_lt
    have := h.size_le
    omega
  unfold Playing.runToEnd
  simp only [EStateM.run_bind, EStateM.run_get]
  rcases h.run_advance (Nat.add_sub_cancel' hle) with
    ⟨q, hrun, hq, hpq, hindex⟩ | ⟨fault, q, hrun, hq, hpq, hfault⟩
  · have hlt := hq.index_lt
    have hactive : q.current = .ok q.history[q.index] := entry_natCast hlt
    have hreached : p.automaton.reached p.text = q.current := by
      rw [hq.current_eq, hpq.automaton_eq, hpq.text_eq, hindex, List.take_length]
    have haccepted := hq.isAccepted_atEnd (hindex.trans (congrArg _ hpq.text_eq.symm))
    rw [hpq.automaton_eq, hpq.text_eq, hreached, hactive] at haccepted
    refine Or.inl ⟨_, q, hreached.trans hactive, ?_, hq, hpq, hindex⟩
    simp only [hrun, haccepted]
    rfl
  · refine Or.inr ⟨fault, q, hfault, ?_, hq, hpq⟩
    simp only [hrun]

/-! ## Commands -/

/-- Starting again, on any text, keeps coherence. -/
theorem Coherent.restart (h : p.Coherent) (text : List Char) :
    ({ p with text, history := p.history.take 1, index := 0 } : Playback).Coherent := by
  have hlt := h.index_lt
  have hsize : (p.history.take 1).size = 1 := by
    rw [Array.take_eq_extract, Array.size_extract]
    omega
  refine ⟨by simp only [hsize, Nat.one_pos], by simp only [hsize]; omega, ?_, fun i hi => ?_⟩
  · simp only [Array.take_eq_extract, Array.getElem_extract]
    exact h.first
  · simp only [hsize] at hi
    omega

/-- **Every command keeps coherence**, and the automaton, also one that fails half-way. -/
theorem Coherent.perform (h : p.Coherent) (c : Command) :
    (stateAfter c.perform p).Coherent ∧ (stateAfter c.perform p).automaton = p.automaton := by
  cases c with
  | forward =>
    rw [Command.perform, stateAfter_discard]
    rcases h.run_forward with ⟨_, hrun⟩ | ⟨q, hrun, hq, hpq, _⟩ | ⟨fault, hrun, _⟩
    · rw [stateAfter_of_ok hrun]
      exact ⟨h, rfl⟩
    · rw [stateAfter_of_ok hrun]
      exact ⟨hq, hpq.automaton_eq⟩
    · rw [stateAfter_of_error hrun]
      exact ⟨h, rfl⟩
  | back =>
    rw [Command.perform, stateAfter_discard, stateAfter_of_ok Playing.run_back]
    exact ⟨h.moveTo (Nat.lt_of_le_of_lt (Nat.sub_le _ 1) h.index_lt), rfl⟩
  | reset => exact ⟨h.restart p.text, rfl⟩
  | setText text => exact ⟨h.restart text, rfl⟩
  | runToEnd =>
    rw [Command.perform, stateAfter_discard]
    rcases h.run_runToEnd with ⟨_, q, _, hrun, hq, hpq, _⟩ | ⟨_, q, _, hrun, hq, hpq⟩
    · rw [stateAfter_of_ok hrun]
      exact ⟨hq, hpq.automaton_eq⟩
    · rw [stateAfter_of_error hrun]
      exact ⟨hq, hpq.automaton_eq⟩

/-- So does every sequence of commands. -/
theorem Coherent.after (h : p.Coherent) (commands : List Command) :
    (p.after commands).Coherent ∧ (p.after commands).automaton = p.automaton := by
  induction commands generalizing p with
  | nil => exact ⟨h, rfl⟩
  | cons c rest ih =>
    obtain ⟨hc, ha⟩ := h.perform c
    obtain ⟨hr, hb⟩ := ih hc
    exact ⟨hr, hb.trans ha⟩

/-! ## What is observed -/

/-- `p` and `q` show the same, and the entries that both know are the same. -/
structure Agree (p q : Playback) : Prop where
  current : p.current = q.current
  ids : ActiveSet.ids <$> p.current = ActiveSet.ids <$> q.current
  fired : p.fired = q.fired
  stuck : p.isStuck = q.isStuck
  accepted : p.isAccepted = q.isAccepted
  entries : ∀ i (_ : i < p.history.size) (_ : i < q.history.size), p.history[i] = q.history[i]

/-- Entries of coherent playbacks are a matter of automaton and text. -/
theorem Coherent.getElem_eq (hp : p.Coherent) (hq : q.Coherent)
    (ha : p.automaton = q.automaton) (ht : p.text = q.text) (i : Nat)
    (hip : i < p.history.size) (hiq : i < q.history.size) : p.history[i] = q.history[i] := by
  have h := hp.reached_eq i hip
  rw [ha, ht, hq.reached_eq i hiq] at h
  exact (Except.ok.inj h).symm

/-- The transitions that led to a known entry lie between it and the one before. -/
theorem firedAt_succ {i : Nat} (h : i + 1 < p.history.size) (hlen : i < p.text.length) :
    p.firedAt (i + 1 : Nat) =
      .ok (p.automaton.transitions.filter
        (carries p.history[i].ids p.history[i + 1].ids p.text[i])) := by
  have hsub : ((i + 1 : Nat) : Int) - 1 = (i : Nat) := by omega
  unfold firedAt
  rw [if_neg (by omega), hsub, entry_natCast (Nat.lt_of_succ_lt h), entry_natCast h,
    Int.toNat_natCast, List.getElem?_eq_getElem hlen]
  rfl

/-- **Coherent playbacks of one text on one automaton agree at one index.** -/
theorem Coherent.agree (hp : p.Coherent) (hq : q.Coherent) (ha : p.automaton = q.automaton)
    (ht : p.text = q.text) (hi : p.index = q.index) : Agree p q := by
  have hcurrent : p.current = q.current := by
    rw [hp.current_eq, hq.current_eq, ha, ht, hi]
  have hentries := hp.getElem_eq hq ha ht
  refine ⟨hcurrent, congrArg (ActiveSet.ids <$> ·) hcurrent, ?_,
    congrArg (ActiveSet.isEmpty <$> ·) hcurrent, ?_, hentries⟩
  · unfold fired
    have hlt := hp.index_lt
    have hlt' := hq.index_lt
    have hle := hp.size_le
    rw [← hi] at hlt' ⊢
    cases hindex : p.index with
    | zero => rfl
    | succ i =>
      rw [hindex] at hlt hlt'
      rw [firedAt_succ hlt (by omega), firedAt_succ hlt' (by rw [← ht]; omega),
        hentries i (by omega) (by omega), hentries (i + 1) hlt hlt', ha]
      simp only [ht]
  · unfold isAccepted atEnd
    rw [hi, ht, hcurrent]

/-- **History coherence over whole runs.** After any commands, failing ones included, the history
of a playback of `A` is coherent; and two such playbacks with one text and one index agree. -/
theorem coherent_after {A : Automaton} {text : List Char} (h : start A text = .ok p)
    (commands : List Command) :
    (p.after commands).Coherent ∧ (p.after commands).automaton = A ∧
      ∀ (text' : List Char) (p' : Playback) (commands' : List Command),
        start A text' = .ok p' → (p.after commands).text = (p'.after commands').text →
        (p.after commands).index = (p'.after commands').index →
        Agree (p.after commands) (p'.after commands') := by
  obtain ⟨hp, ha⟩ := (coherent_start h).after commands
  rw [automaton_of_start h] at ha
  refine ⟨hp, ha, fun text' p' commands' h' ht hi => ?_⟩
  obtain ⟨hq, hb⟩ := (coherent_start h').after commands'
  rw [automaton_of_start h'] at hb
  exact hp.agree hq (ha.trans hb.symm) ht hi

/-- An automaton with a transition on `b` to a state that is not there. -/
def dangling : Automaton where
  start := ⟨0, false⟩
  final := ⟨1, true⟩
  states := #[⟨0, false⟩, ⟨1, true⟩]
  transitions := [⟨0, 1, some "a"⟩, ⟨1, 7, some "b"⟩]

/-- A run whose second step fails, cached entries walked back over and a new text among it. -/
theorem coherent_after_failing_step :
    ∃ p, start dangling ['a', 'b'] = .ok p ∧
      Playing.runToEnd.run p = .error (.noSuchState 7) (p.after [.runToEnd]) ∧
      (p.after [.runToEnd, .back, .forward, .setText ['a', 'a'], .forward]).Coherent := by
  have hstart : start dangling ['a', 'b'] = .ok _ := rfl
  exact ⟨_, hstart, rfl, (coherent_after hstart _).1⟩

end Playback

/-- **Acceptance is that of the set reached by the whole text**, for any automaton. -/
theorem Automaton.accepts_eq (A : Automaton) (text : List Char) :
    A.accepts text = ActiveSet.hasAccepting <$> A.reached text := by
  unfold accepts
  cases hinitial : A.initial with
  | error fault =>
    unfold Playback.start reached
    rw [hinitial]
    rfl
  | ok first =>
    have hstart : Playback.start A text = .ok ⟨A, text, #[first], 0⟩ := by
      unfold Playback.start
      rw [hinitial]
      rfl
    rw [hstart]
    simp only [bind, Except.bind]
    rcases (Playback.coherent_start hstart).run_runToEnd with
      ⟨active, q, hactive, hrun, _⟩ | ⟨fault, q, hfault, hrun, _⟩
    · rw [hrun, hactive]
      rfl
    · rw [hrun, hfault]
      rfl

end RegexStepper

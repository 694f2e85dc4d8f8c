import RegexStepper.Page
import RegexStepper.Proofs.PatternLanguage

/-!
# Playing without a fault

A look-up that a hand-made automaton makes fail never fails on a compiled one: such an automaton is
`Automaton.Faultless`, every text reaches a set of states. On a coherent playback of a faultless
automaton every command succeeds (`Coherent.run_command`), and what a coherent playback has in its
history is enough to show it (`Coherent.exists_board`).
-/

namespace RegexStepper

/-! ## Automata that never fail -/

namespace Automaton

/-- Every text reaches a set of states. -/
def Faultless (A : Automaton) : Prop :=
  ∀ text, ∃ active, A.reached text = .ok active

/-- On an indexed automaton whose start is there no look-up fails. -/
theorem Indexed.faultless {A : Automaton} (h : A.Indexed) (hstart : A.HasId A.start.id) :
    A.Faultless := by
  intro text
  obtain ⟨active, hactive, _⟩ := h.reached_spec hstart text
  exact ⟨active, hactive⟩

theorem Realizes.faultless {A : Automaton} {r : Regex} (h : A.Realizes r) : A.Faultless :=
  h.indexed.faultless h.start_hasId

end Automaton

/-- The automaton of a pattern never fails. -/
theorem faultless_of_compile {pattern : String} {limit : Int} {A : Automaton}
    (h : compile pattern limit = .ok A) : A.Faultless := by
  obtain ⟨r, _, hrealizes⟩ := exists_realizes_of_compile h
  exact hrealizes.faultless

/-- The text to play after a command. -/
def Command.textAfter (text : List Char) : Command → List Char
  | setText new => new
  | forward | back | reset | runToEnd => text

namespace Playback

variable {p : Playback}

theorem exists_start {A : Automaton} (h : A.Faultless) (text : List Char) :
    ∃ p, start A text = .ok p ∧ p.Coherent ∧ p.automaton = A ∧ p.text = text := by
  obtain ⟨first, hfirst⟩ := h []
  rw [Automaton.reached_nil] at hfirst
  have hstart : start A text = .ok ⟨A, text, #[first], 0⟩ :=
    bind_eq_ok.mpr ⟨first, hfirst, rfl⟩
  exact ⟨_, hstart, coherent_start hstart, rfl, rfl⟩

namespace Coherent

/-- **Every command succeeds** on a coherent playback of an automaton that never fails. -/
theorem run_command (h : p.Coherent) (hA : p.automaton.Faultless) (c : Command) :
    ∃ q, c.perform.run p = .ok () q ∧ q.Coherent ∧ q.automaton = p.automaton ∧
      q.text = c.textAfter p.text := by
  obtain ⟨active, hactive⟩ := hA p.text
  have hnever : ∀ fault, p.automaton.reached p.text ≠ .error fault := by
    intro fault hfault
    rw [hactive] at hfault
    cases hfault
  have hrun : ∃ q, c.perform.run p = .ok () q ∧ q.text = c.textAfter p.text := by
    cases c with
    | forward =>
      rcases h.run_forward with ⟨_, hrun⟩ | ⟨q, hrun, _, hpq, _⟩ | ⟨fault, _, hfault⟩
      · exact ⟨p, run_discard_of_ok hrun, rfl⟩
      · exact ⟨q, run_discard_of_ok hrun, hpq.text_eq⟩
      · exact absurd hfault (hnever fault)
    | back => exact ⟨_, run_discard_of_ok Playing.run_back, rfl⟩
    | reset => exact ⟨_, rfl, rfl⟩
    | setText text => exact ⟨_, rfl, rfl⟩
    | runToEnd =>
      rcases h.run_runToEnd with ⟨_, q, _, hrun, _, hpq, _⟩ | ⟨fault, _, hfault, _⟩
      · exact ⟨q, run_discard_of_ok hrun, hpq.text_eq⟩
      · exact absurd hfault (hnever fault)
  obtain ⟨q, hq, htext⟩ := hrun
  obtain ⟨hcoherent, hautomaton⟩ := h.perform c
  rw [stateAfter_of_ok hq] at hcoherent hautomaton
  exact ⟨q, hq, hcoherent, hautomaton, htext⟩

/-! ## What is shown of a playback -/

theorem exists_current (h : p.Coherent) : ∃ active, p.current = .ok active :=
  ⟨_, entry_natCast h.index_lt⟩

theorem exists_isAccepted (h : p.Coherent) : ∃ accepted, p.isAccepted = .ok accepted := by
  obtain ⟨active, hactive⟩ := h.exists_current
  unfold isAccepted
  rw [hactive]
  split
  · exact ⟨_, rfl⟩
  · exact ⟨_, rfl⟩

/-- What has fired are transitions of the automaton, in their order and each as often as there. -/
theorem exists_fired (h : p.Coherent) :
    ∃ fired, p.fired = .ok fired ∧ fired.Sublist p.automaton.transitions := by
  have hlt := h.index_lt
  have hle := h.size_le
  unfold fired
  cases hindex : p.index with
  | zero => exact ⟨[], rfl, List.nil_sublist _⟩
  | succ i =>
    rw [hindex] at hlt
    exact ⟨_, firedAt_succ hlt (by omega), List.filter_sublist⟩

theorem exists_highlight (h : p.Coherent) : ∃ highlight, p.highlight = .ok highlight := by
  obtain ⟨active, hactive⟩ := h.exists_current
  obtain ⟨fired, hfired, _⟩ := h.exists_fired
  obtain ⟨accepted, haccepted⟩ := h.exists_isAccepted
  unfold highlight
  rw [hactive, hfired, haccepted]
  exact ⟨_, rfl⟩

/-- Behind the first entry there is a character before each. -/
theorem exists_consumedAt (h : p.Coherent) {i : Nat} (hi : i < p.history.size) :
    ∃ text, p.consumedAt i = .ok text := by
  cases i with
  | zero => exact ⟨_, rfl⟩
  | succ i =>
    have hlen : i < p.text.length := by have := h.size_le; omega
    rw [consumedAt, List.getElem?_eq_getElem hlen]
    exact ⟨_, rfl⟩

/-- Each entry of the history has its row. -/
theorem exists_historyRows (h : p.Coherent) : ∃ rows, p.historyRows = .ok rows := by
  refine exists_mapM_eq_ok ?_
  rintro ⟨active, step⟩ hentry
  have hlt : step < p.history.size := by
    have := List.snd_lt_of_mem_zipIdx hentry
    rwa [Nat.add_zero, Array.length_toList] at this
  obtain ⟨text, htext⟩ := h.exists_consumedAt hlt
  refine ⟨⟨step, text, active.ids, active.hasAccepting⟩, ?_⟩
  simp only [historyRow, htext]
  rfl

theorem exists_historyTable (h : p.Coherent) : ∃ table, Table.ofHistory p = .ok table := by
  obtain ⟨rows, hrows⟩ := h.exists_historyRows
  unfold Table.ofHistory
  rw [hrows]
  exact ⟨_, rfl⟩

theorem exists_verdict (h : p.Coherent) : ∃ verdict, Verdict.ofPlayback p = .ok verdict := by
  obtain ⟨active, hactive⟩ := h.exists_current
  obtain ⟨accepted, haccepted⟩ := h.exists_isAccepted
  unfold Verdict.ofPlayback isStuck
  rw [haccepted, hactive]
  split
  · exact ⟨_, rfl⟩
  · exact ⟨_, rfl⟩

/-- **A coherent playback can be shown**, beside any automaton. -/
theorem exists_board (h : p.Coherent) (A : Automaton) :
    ∃ board, Board.ofPlayback A p = .ok board ∧ Verdict.ofPlayback p = .ok board.verdict := by
  obtain ⟨verdict, hverdict⟩ := h.exists_verdict
  obtain ⟨highlight, hhighlight⟩ := h.exists_highlight
  obtain ⟨table, htable⟩ := h.exists_historyTable
  unfold Board.ofPlayback
  rw [hverdict, hhighlight, htable]
  exact ⟨_, rfl, rfl⟩

end Coherent

end Playback

end RegexStepper

import RegexStepper.Proofs.Faultless

/-!
# Running to the end

`Playing.runToEnd` works out beforehand how often it goes forward. `Playback.RunsOut p q` is the
same without a count: going forward from `p` for as long as there is somewhere to go ends at `q`. A
playback runs out in one way at the most (`RunsOut.unique`), and the count is the right one
(`Coherent.runsOut`).

On a coherent playback the text and the entries known so far stay, and the others are added
(`Coherent.exists_runToEnd`), whatever place of the text it starts from. Headline:
**`run_to_end_from_anywhere`**: on a compiled automaton, after any commands, the run ends, its
verdict is that of a fresh run on the text, and a second run repeats it and changes nothing.
-/

namespace RegexStepper

namespace Playback

variable {p q : Playback}

/-! ## Going forward until there is nowhere to go -/

/-- Going forward from `p` until there is nowhere to go ends at `q`. -/
inductive RunsOut : Playback → Playback → Prop where
  | done {p q : Playback} : Playing.forward.run p = .ok false q → RunsOut p q
  | more {p q r : Playback} : Playing.forward.run p = .ok true q → RunsOut q r → RunsOut p r

/-- There is one place where it ends. -/
theorem RunsOut.unique {q' : Playback} (h : RunsOut p q) (h' : RunsOut p q') : q = q' := by
  induction h with
  | done hrun =>
    cases h' with
    | done hrun' => cases hrun.symm.trans hrun'; rfl
    | more hrun' => cases hrun.symm.trans hrun'
  | more hrun _ ih =>
    cases h' with
    | done hrun' => cases hrun.symm.trans hrun'
    | more hrun' hrest =>
      cases hrun.symm.trans hrun'
      exact ih hrest

namespace Coherent

/-- Going forward as often as there are characters left goes on until there is nowhere to go. -/
theorem runsOut {count : Nat} (h : p.Coherent) (hcount : p.index + count = p.text.length)
    (hrun : (Playing.advance count).run p = .ok () q) : RunsOut p q := by
  induction count generalizing p with
  | zero =>
    have hend : p.text[p.index]? = none :=
      List.getElem?_eq_none_iff.mpr (Nat.le_of_eq hcount.symm)
    cases hrun
    exact .done (Playing.run_forward_atEnd hend)
  | succ count ih =>
    rw [Playing.advance, EStateM.run_bind] at hrun
    rcases h.run_forward with ⟨hend, _⟩ | ⟨r, hforward, hr, hpr, hindex⟩ | ⟨fault, hforward, _⟩
    · omega
    · simp only [hforward, if_true] at hrun
      rw [← hpr.text_eq] at hcount
      exact .more hforward (ih hr (by omega) hrun)
    · simp only [hforward] at hrun
      cases hrun

/-! ## Where it ends -/

/-- At the end of the text every entry is known. -/
theorem size_eq (h : p.Coherent) (hend : p.index = p.text.length) :
    p.history.size = p.text.length + 1 := by
  have hlt := h.index_lt
  have hle := h.size_le
  omega

/-- An entry that is known is an entry of any coherent playback that knows as many. -/
theorem getElem?_eq (hp : p.Coherent) (hq : q.Coherent) (hpq : Extends p q) {i : Nat}
    (hi : i < p.history.size) : q.history[i]? = p.history[i]? := by
  have hiq : i < q.history.size := Nat.lt_of_lt_of_le hi hpq.size_le
  rw [Array.getElem?_eq_getElem hi, Array.getElem?_eq_getElem hiq,
    hp.getElem_eq hq hpq.automaton_eq.symm hpq.text_eq.symm i hi hiq]

/-- At the end of the text there is nothing to run. -/
theorem run_runToEnd_atEnd {verdict : Bool} (hend : p.index = p.text.length)
    (hverdict : p.isAccepted = .ok verdict) : Playing.runToEnd.run p = .ok verdict p := by
  have hstay : (Playing.advance 0).run p = .ok () p := rfl
  unfold Playing.runToEnd
  simp only [EStateM.run_bind, EStateM.run_get]
  rw [hend, Nat.sub_self, hstay]
  simp only [hverdict]
  rfl

/-- A run that succeeds has gone forward until there was nowhere to go. -/
theorem runsOut_of_runToEnd {verdict : Bool} (h : p.Coherent)
    (hrun : Playing.runToEnd.run p = .ok verdict q) : RunsOut p q := by
  have hcount : p.index + (p.text.length - p.index) = p.text.length := by
    have := h.index_lt
    have := h.size_le
    omega
  unfold Playing.runToEnd at hrun
  simp only [EStateM.run_bind, EStateM.run_get] at hrun
  cases hadvance : (Playing.advance (p.text.length - p.index)).run p with
  | error fault r =>
    rw [hadvance] at hrun
    cases hrun
  | ok _ r =>
    rw [hadvance] at hrun
    simp only at hrun
    cases hverdict : r.isAccepted with
    | error fault =>
      rw [hverdict] at hrun
      cases hrun
    | ok answer =>
      rw [hverdict] at hrun
      cases hrun
      exact h.runsOut hcount hadvance

end Coherent

/-- `q` is where `p` ends when it runs out: the text is consumed and all its entries are known,
those of `p` among them. -/
structure EndsAt (p q : Playback) : Prop where
  runs_out : RunsOut p q
  automaton_eq : q.automaton = p.automaton
  text_eq : q.text = p.text
  index_eq : q.index = q.text.length
  size_eq : q.history.size = q.text.length + 1
  kept : ∀ i (_ : i < p.history.size), q.history[i]? = p.history[i]?

/-- **Running to the end** of a coherent playback, on an automaton that never fails: the verdict is
that of a fresh run, and there is nothing left to run. -/
theorem Coherent.exists_runToEnd (h : p.Coherent) (hA : p.automaton.Faultless) :
    ∃ verdict q, Playing.runToEnd.run p = .ok verdict q ∧
      p.automaton.accepts p.text = .ok verdict ∧ EndsAt p q ∧
      Playing.runToEnd.run q = .ok verdict q := by
  obtain ⟨active, hactive⟩ := hA p.text
  rcases h.run_runToEnd with
    ⟨active', q, hactive', hrun, hq, hpq, hindex⟩ | ⟨fault, q, hfault, _⟩
  · have hend : q.index = q.text.length := hindex.trans (congrArg _ hpq.text_eq.symm)
    have haccepted : q.isAccepted = .ok active'.hasAccepting := by
      rw [hq.isAccepted_atEnd hend, hpq.automaton_eq, hpq.text_eq, hactive']
      rfl
    refine ⟨_, q, hrun, ?_, ?_, run_runToEnd_atEnd hend haccepted⟩
    · rw [Automaton.accepts_eq, hactive']
      rfl
    · exact ⟨h.runsOut_of_runToEnd hrun, hpq.automaton_eq, hpq.text_eq, hend, hq.size_eq hend,
        fun i hi => h.getElem?_eq hq hpq hi⟩
  · rw [hactive] at hfault
    cases hfault

/-! ## Main result -/

/-- **Running to the end from anywhere.** A playback of any text on the automaton of a pattern
starts, and after any commands going forward until there is nowhere to go comes to an end. That is
where running to the end leaves the playback: the text is consumed, there is an entry for each of
its prefixes, and the entries that were known are the same. The verdict is that of a fresh run on
the text then played; a second run answers it again and changes nothing. -/
theorem run_to_end_from_anywhere {pattern : String} {limit : Int} {A : Automaton}
    (h : compile pattern limit = .ok A) (text : List Char) :
    ∃ p, start A text = .ok p ∧ ∀ commands, ∃ verdict q,
      Playing.runToEnd.run (p.after commands) = .ok verdict q ∧
      A.accepts (p.after commands).text = .ok verdict ∧
      EndsAt (p.after commands) q ∧ Playing.runToEnd.run q = .ok verdict q := by
  have hA := faultless_of_compile h
  obtain ⟨p, hp, hcoherent, hautomaton, _⟩ := exists_start hA text
  refine ⟨p, hp, fun commands => ?_⟩
  obtain ⟨hafter, hsame⟩ := hcoherent.after commands
  rw [hautomaton] at hsame
  have hrun := hafter.exists_runToEnd (hsame ▸ hA)
  rwa [hsame] at hrun

/-- A text played to its end, taken back twice and replaced by another one, of which the first
character is played and taken back. -/
def detour : List Command :=
  [.runToEnd, .back, .back, .setText ['a', 'c', 'd'], .forward, .back]

/-- After it all of the new text is left to run, though one more entry than the first is known. -/
theorem run_to_end_from_anywhere_detour :
    ∃ A p q, compile "a(b|c)*d" 100 = .ok A ∧ start A ['a', 'b', 'd'] = .ok p ∧
      (p.after detour).index = 0 ∧ (p.after detour).history.size = 2 ∧
      Playing.runToEnd.run (p.after detour) = .ok true q ∧ A.accepts ['a', 'c', 'd'] = .ok true ∧
      q.index = 3 ∧ q.history.size = 4 ∧ Playing.runToEnd.run q = .ok true q := by
  obtain ⟨A, hA, hplayed⟩ := bind_eq_ok.mp (eq_ok_of_toOption (by decide +kernel :
    (compile "a(b|c)*d" 100 >>= fun A => start A ['a', 'b', 'd'] >>= fun p =>
      (⟨·, (p.after detour).text, (p.after detour).index, (p.after detour).history.size⟩) <$>
        A.accepts ['a', 'c', 'd']).toOption =
      some (true, ['a', 'c', 'd'], 0, 2)))
  obtain ⟨p, hp, hplace⟩ := bind_eq_ok.mp hplayed
  obtain ⟨_, haccepted, hplace⟩ := map_eq_ok.mp hplace
  obtain ⟨rfl, htext, hindex, hsize⟩ := by simpa only [Prod.mk.injEq] using hplace
  obtain ⟨p', hp', hends⟩ := run_to_end_from_anywhere hA ['a', 'b', 'd']
  obtain rfl := Except.ok.inj (hp.symm.trans hp')
  obtain ⟨verdict, q, hrun, haccepts, hend, hagain⟩ := hends detour
  rw [htext] at haccepts
  obtain rfl : verdict = true := Except.ok.inj (haccepts.symm.trans haccepted)
  have hlength : q.text.length = 3 := by rw [hend.text_eq, htext]; rfl
  exact ⟨A, p, q, hA, hp, hindex, hsize, hrun, haccepts, hend.index_eq.trans hlength,
    by rw [hend.size_eq, hlength], hagain⟩

end Playback

end RegexStepper

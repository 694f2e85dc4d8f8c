import RegexStepper.Proofs.Session.Consistency

/-!
# A refused conversion changes the error only

A conversion that is refused sets the error and leaves the rest (`convert_of_refused`), and settling
does not look at the error (`settle_withError`). So the run of an action that presses the button in
vain, and the run of the same action without its button, go through the same states but for the
error.

What neither of them changes, without a new test text, are the slots of the pattern, the automaton
and the playback (`Consistent.slots_eq`).
Headline:

* **`refused_conversion_atomic`**: both, for every session that actions lead to.
-/

namespace RegexStepper

namespace Action

variable {a : Action}

/-- The same action without its button. -/
def unpressed (a : Action) : Action :=
  { a with button := none }

theorem command?_unpressed : a.unpressed.command? = none :=
  rfl

theorem command?_of_convert (h : a.button = some .convert) : a.command? = none := by
  unfold command?
  rw [h]
  rfl

end Action

namespace Session

variable {s s' : Session} {link : Option String} {attempt pattern : String} {w : Workbench}
  {a : Action} {actions : List Action}

/-- The same session with another error. -/
def withError (s : Session) (error : Option PatternError) : Session :=
  { s with error }

/-! ## With and without the button -/

/-- A page that offers the conversion offers the action without it. -/
theorem offers_unpressed (hclick : a.button = some .convert) (h : s.offers a = true) :
    s.offers a.unpressed = true := by
  unfold offers Action.usesPlayback at *
  rw [Action.command?_of_convert hclick] at h
  rw [Action.command?_unpressed]
  exact h

/-- Without its button an action types and settles. -/
theorem run_unpressed : s.run a.unpressed = (s.type a).settle none :=
  rfl

theorem convert_of_refused (s : Session) (hrefused : ∀ A, compile pattern patternLimit ≠ .ok A) :
    ∃ e, compile pattern patternLimit = .error (.pattern e) ∧
      s.convert pattern = .ok (s.withError (some e)) := by
  rcases convert_cases s pattern with ⟨A, _, hcompile, _⟩ | ⟨e, hcompile, hconvert⟩
  · exact absurd hcompile (hrefused A)
  · exact ⟨e, hcompile, hconvert⟩

/-- **Settling does not look at the error.** -/
theorem settle_withError {command : Option Command} (h : s.settle command = .ok s')
    (error : Option PatternError) :
    (s.withError error).settle command = .ok (s'.withError error) := by
  rcases settle_cases h with ⟨hA, rfl⟩ | ⟨A, p, q, hA, hp, hplay, rfl⟩
  · exact settle_of_none hA
  · rw [@settle_of_some (s.withError error) A p command hA hp]
    exact map_eq_ok.mpr ⟨q, hplay, rfl⟩

/-! ## What stays in the slots -/

/-- **Without a button and a new test text the slots stay.** -/
theorem Consistent.slots_eq (h : s.Consistent link attempt)
    (hrun : s.run a.unpressed = .ok s') (hbox : s'.testBox = s.testBox) :
    s'.pattern = s.pattern ∧ s'.automaton = s.automaton ∧ s'.playback = s.playback := by
  rw [run_unpressed] at hrun
  rcases settle_cases hrun with ⟨_, rfl⟩ | ⟨A, p, q, hA, hp, hplay, rfl⟩
  · exact ⟨rfl, rfl, rfl⟩
  · refine ⟨rfl, rfl, ?_⟩
    obtain ⟨w, hw, _⟩ := h.exists_workbench hA
    obtain rfl : p = w.playback := Option.some.inj (hp.symm.trans (workbench_eq_some_iff.mp hw).2.2)
    -- the box that settling leaves is the one it found, and the playback is up to date with that
    have htext : (s.type a).testText = String.ofList w.playback.text :=
      Option.some.inj (hbox.trans (h.testBox_eq w hw))
    rw [update, htext, String.toList_ofList, if_pos rfl] at hplay
    obtain rfl : w.playback = q := Except.ok.inj hplay
    exact hp.symm

/-! ## Main result -/

/-- **A refused conversion is atomic.** If the button is pressed on a pattern that does not compile,
the session afterwards is the one that the action would have led to without the button, with the
error of that pattern; and if the test box is as before, so are the pattern, its automaton and the
whole playback. -/
theorem refused_conversion_atomic (h : after link actions = .ok s) (hoffers : s.offers a = true)
    (hclick : a.button = some .convert)
    (hrefused : ∀ A, compile (s.type a).patternBox.content patternLimit ≠ .ok A) :
    ∃ e s', compile (s.type a).patternBox.content patternLimit = .error (.pattern e) ∧
      s.perform a.unpressed = .ok s' ∧ s.perform a = .ok (s'.withError (some e)) ∧
      (s'.testBox = s.testBox → s'.pattern = s.pattern ∧ s'.automaton = s.automaton ∧
        s'.playback = s.playback) := by
  obtain ⟨attempt, hreached⟩ := exists_reached_of_after h
  obtain ⟨s', hrun', _⟩ := hreached.consistent.run a.unpressed
  obtain ⟨e, hcompile, hconvert⟩ := convert_of_refused (s.type a) hrefused
  have hrun : s.run a = .ok (s'.withError (some e)) := by
    rw [run_of_click hclick, Action.command?_of_convert hclick]
    exact bind_eq_ok.mpr ⟨_, hconvert, settle_withError hrun' (some e)⟩
  refine ⟨e, s', hcompile, ?_, ?_, hreached.consistent.slots_eq hrun'⟩
  · exact (perform_of_offers (offers_unpressed hclick hoffers)).trans hrun'
  · exact (perform_of_offers hoffers).trans hrun

/-- Two steps into the first text. -/
def halfway : List Action :=
  [⟨none, none, some .forward⟩, ⟨none, none, some .forward⟩]

/-- A pattern that does not compile. -/
def vain : Action :=
  ⟨some "(a|", none, some .convert⟩

/-- Halfway through the text, `(a|` is refused and the playback stays where it is. -/
theorem refused_conversion_atomic_halfway :
    ∃ s e s', after none halfway = .ok s ∧
      s.outline = (some "a(b|c)*d", some (['a', 'b', 'd'], 2), none) ∧
      s.perform vain = .ok (withError s' (some e)) ∧ s'.automaton = s.automaton ∧
      s'.playback = s.playback := by
  have hoffered : offered none halfway = true := by decide +kernel
  have houtline : (after none halfway).toOption.map outline =
      some (some "a(b|c)*d", some (['a', 'b', 'd'], 2), none) := by decide +kernel
  have hvain : (after none halfway).toOption.map (fun s =>
      (s.testBox, s.offers vain, (s.type vain).patternBox.content)) =
      some (some "abd", true, "(a|") := by decide +kernel
  have hkept : (after none (halfway ++ [vain.unpressed])).toOption.map (·.testBox) =
      some (some "abd") := by decide +kernel
  obtain ⟨_, s, hreached⟩ := exists_reached hoffered
  have hafter := hreached.after_eq
  rw [hafter] at houtline hvain
  obtain ⟨hbox, hoffers, hcontent⟩ :
      s.testBox = some "abd" ∧ s.offers vain = true ∧ (s.type vain).patternBox.content = "(a|" := by
    simpa [Except.toOption] using hvain
  have hrefused : ∀ A, compile (s.type vain).patternBox.content patternLimit ≠ .ok A := by
    intro A hcompile
    have hnone : (compile "(a|" patternLimit).toOption = none := by decide +kernel
    rw [← hcontent, hcompile] at hnone
    cases hnone
  obtain ⟨e, s', _, hunpressed, hperform, hslots⟩ :=
    refused_conversion_atomic hafter hoffers rfl hrefused
  rw [after_concat.mpr ⟨s, hafter, hunpressed⟩] at hkept
  refine ⟨s, e, s', hafter, Option.some.inj houtline, hperform, (hslots ?_).2⟩
  exact (Option.some.inj hkept).trans hbox.symm

end Session

end RegexStepper

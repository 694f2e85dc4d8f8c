import RegexStepper.Proofs.Session.Consistency
import RegexStepper.Proofs.ShareLink

/-!
# Sharing a session by its link

Once a pattern has compiled, the link of a consistent session holds it (`Rooted.link_of_pattern`)
and the automaton is the one that it compiles to (`Rooted.automaton_of_pattern`). A session opened
from that link converts the same pattern first (`firstAttempt_encode`), and so has the same
automaton.

Headline: **`opened_from_shared_link`**: the link of a session opens a session with the same
pattern, the same automaton and the same link.
-/

namespace RegexStepper

namespace Session

variable {s : Session} {link : Option String} {pattern : String} {actions : List Action}

/-! ## What the pattern determines -/

/-- A session with a pattern has the workbench of this pattern. -/
theorem Rooted.exists_of_pattern (h : s.Rooted link) (hpattern : s.pattern = some pattern) :
    ∃ w, s.workbench = some w ∧ w.pattern = pattern := by
  rcases h.together with ⟨hnone, _⟩ | ⟨w, hw⟩
  · cases hnone.symm.trans hpattern
  · exact ⟨w, hw, Option.some.inj ((workbench_eq_some_iff.mp hw).1.symm.trans hpattern)⟩

theorem Rooted.link_of_pattern (h : s.Rooted link) (hpattern : s.pattern = some pattern) :
    s.link = some (ShareLink.encode pattern) := by
  obtain ⟨w, hw, rfl⟩ := h.exists_of_pattern hpattern
  exact h.link_eq w hw

theorem Rooted.automaton_of_pattern (h : s.Rooted link) (hpattern : s.pattern = some pattern) :
    ∃ A, s.automaton = some A ∧ compile pattern patternLimit = .ok A := by
  obtain ⟨w, hw, rfl⟩ := h.exists_of_pattern hpattern
  exact ⟨w.automaton, (workbench_eq_some_iff.mp hw).2.1, (h.sound w hw).compiled⟩

/-- A session opened from the link of a pattern converts this pattern first. -/
theorem firstAttempt_encode (pattern : String) :
    firstAttempt (some (ShareLink.encode pattern)) = pattern :=
  ShareLink.decode_encode pattern defaultPattern

/-- **A pattern that compiles is opened from its link.** -/
theorem exists_start_encode {A : Automaton} (h : compile pattern patternLimit = .ok A) :
    ∃ t, start (some (ShareLink.encode pattern)) = .ok t ∧ t.pattern = some pattern ∧
      t.automaton = some A ∧ t.error = none ∧ t.link = some (ShareLink.encode pattern) := by
  obtain ⟨t, hstart, ht⟩ := exists_start (some (ShareLink.encode pattern))
  rw [firstAttempt_encode] at ht
  have herror : t.error = none := ht.error_eq_none_iff.mpr ⟨A, h⟩
  have hpattern := ht.pattern_eq herror
  obtain ⟨B, hautomaton, hcompile⟩ := ht.automaton_of_pattern hpattern
  obtain rfl : A = B := Except.ok.inj (h.symm.trans hcompile)
  exact ⟨t, hstart, hpattern, hautomaton, herror, ht.link_of_pattern hpattern⟩

/-! ## Main result -/

/-- **A shared link reproduces the automaton.** Whatever link a session was opened from and whatever
was done in it: once it has a pattern, its own link opens a session that has this pattern, the same
automaton, no error and the same link. -/
theorem opened_from_shared_link (h : after link actions = .ok s)
    (hpattern : s.pattern = some pattern) :
    ∃ parameter A t, s.link = some parameter ∧ s.automaton = some A ∧
      start (some parameter) = .ok t ∧ t.pattern = some pattern ∧ t.automaton = some A ∧
      t.error = none ∧ t.link = some parameter := by
  obtain ⟨_, hreached⟩ := exists_reached_of_after h
  have hrooted := hreached.consistent.toRooted
  obtain ⟨A, hautomaton, hcompile⟩ := hrooted.automaton_of_pattern hpattern
  obtain ⟨t, hstart, ht⟩ := exists_start_encode hcompile
  exact ⟨_, A, t, hrooted.link_of_pattern hpattern, hautomaton, hstart, ht⟩

/-- A pattern beyond ASCII, its text played to the end, and a conversion that is refused. -/
def voyage : List Action :=
  [⟨some "ü*|\\e", none, some .convert⟩, ⟨none, some "üü", some .toEnd⟩,
    ⟨some "(", none, some .convert⟩]

/-- From a link that holds no text, to the link of a pattern beyond ASCII. -/
theorem opened_from_shared_link_voyage :
    ∃ s A t, after (some "_w==") voyage = .ok s ∧ s.error.isSome = true ∧
      s.link = some "w7wqfFxl" ∧ s.automaton = some A ∧ start (some "w7wqfFxl") = .ok t ∧
      t.pattern = some "ü*|\\e" ∧ t.automaton = some A ∧ t.error = none := by
  have hoffered : offered (some "_w==") voyage = true := by decide +kernel
  have hfacts : (after (some "_w==") voyage).toOption.map (fun s =>
      (s.pattern, s.link, s.error.isSome)) =
      some (some "ü*|\\e", some "w7wqfFxl", true) := by decide +kernel
  obtain ⟨_, s, hreached⟩ := exists_reached hoffered
  have hafter := hreached.after_eq
  rw [hafter] at hfacts
  obtain ⟨hpattern, hlink, herror⟩ :
      s.pattern = some "ü*|\\e" ∧ s.link = some "w7wqfFxl" ∧ s.error.isSome = true := by
    simpa [Except.toOption] using hfacts
  obtain ⟨parameter, A, t, hparameter, hautomaton, hstart, htpattern, htautomaton, hterror, _⟩ :=
    opened_from_shared_link hafter hpattern
  obtain rfl := Option.some.inj (hlink.symm.trans hparameter)
  exact ⟨s, A, t, hafter, herror, hlink, hautomaton, hstart, htpattern, htautomaton, hterror⟩

end Session

end RegexStepper

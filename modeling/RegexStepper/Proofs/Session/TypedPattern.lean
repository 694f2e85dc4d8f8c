import RegexStepper.Proofs.Session.Consistency

/-!
# Which pattern a conversion takes

The pattern box is drawn with a suggestion: the pattern that compiled last, or the default one. It
holds what is typed only while the suggestion stays the same from one page to the next; a new
suggestion takes the place of it (`type_content`). A conversion that succeeds changes the suggestion
in the middle of its run, so that it is the run after it that does not see what is typed
(`box_suggestion`), and converts the suggestion once more. That never fails, since what is suggested
compiles (`Rooted.suggestion_compiles`).

Headlines:

* **`typed_pattern_converted`**: what is typed is converted if the run before left the suggestion as
  it was, and is lost otherwise;
* `typed_pattern_lost`: two conversions in a row, the second one of the first pattern again;
* `typed_twice_converted`: the same action once more converts what is typed, whatever was before.
-/

namespace RegexStepper

namespace PatternBox

variable {box : PatternBox} {suggestion pattern : String} {typed : Option String}

/-- A drawn box remembers what it was drawn with. -/
theorem refresh_suggestion : (box.refresh suggestion typed).suggestion = suggestion := by
  unfold refresh
  split
  · assumption
  · rfl

/-- What a box holds after a pattern was typed. -/
theorem refresh_content (h : pattern.length ≤ patternLimit) :
    (box.refresh suggestion (some pattern)).content =
      if box.suggestion = suggestion then pattern else suggestion := by
  have htakes : takes pattern = true := decide_eq_true h
  unfold refresh
  split
  · show ((some pattern).filter takes).getD box.content = pattern
    rw [Option.filter_some_pos htakes]
    rfl
  · rfl

end PatternBox

namespace Session

variable {s s₀ s' : Session} {link : Option String} {attempt pattern : String} {a : Action}
  {actions : List Action}

/-! ## What a run leaves of the box and the suggestion -/

theorem settle_keeps {command : Option Command} (h : s.settle command = .ok s') :
    s'.patternBox = s.patternBox ∧ s'.suggestion = s.suggestion := by
  rcases settle_cases h with ⟨_, rfl⟩ | ⟨_, _, _, _, _, _, rfl⟩
  · exact ⟨rfl, rfl⟩
  · exact ⟨rfl, rfl⟩

theorem convert_keeps (h : s.convert pattern = .ok s') :
    s'.patternBox = s.patternBox ∧ (s'.suggestion = s.suggestion ∨ s'.suggestion = pattern) := by
  rcases convert_cases s pattern with ⟨A, p, _, _, _, hconvert⟩ | ⟨e, _, hconvert⟩
  · obtain rfl := Except.ok.inj (h.symm.trans hconvert)
    exact ⟨rfl, Or.inr rfl⟩
  · obtain rfl := Except.ok.inj (h.symm.trans hconvert)
    exact ⟨rfl, Or.inl rfl⟩

/-- **A run draws the box once, with the suggestion from before it**, and afterwards suggests the
same or what the box held. -/
theorem run_keeps (h : s.run a = .ok s') :
    s'.patternBox = (s.type a).patternBox ∧
      (s'.suggestion = s.suggestion ∨ s'.suggestion = (s.type a).patternBox.content) := by
  by_cases hclick : a.button = some .convert
  · rw [run_of_click hclick] at h
    obtain ⟨t, hconvert, hsettle⟩ := bind_eq_ok.mp h
    obtain ⟨hbox, hsuggestion⟩ := settle_keeps hsettle
    rw [hbox, hsuggestion]
    exact convert_keeps hconvert
  · rw [run_of_no_click hclick] at h
    obtain ⟨hbox, hsuggestion⟩ := settle_keeps h
    exact ⟨hbox, Or.inl hsuggestion⟩

/-- **The box was last drawn with the suggestion from before the last run.** -/
theorem box_suggestion (h₀ : after link actions.dropLast = .ok s₀)
    (h : after link actions = .ok s) : s.patternBox.suggestion = s₀.suggestion := by
  induction actions using List.reverseRecOn with
  | nil =>
    obtain rfl := Except.ok.inj (h₀.symm.trans h)
    obtain ⟨_, hstart, hfirst⟩ := bind_eq_ok.mp h
    obtain rfl := Except.ok.inj hfirst
    unfold start at hstart
    obtain ⟨t, _, hsettle⟩ := bind_eq_ok.mp hstart
    obtain ⟨hbox, hsuggestion⟩ := settle_keeps hsettle
    rw [hbox, hsuggestion]
    rfl
  | append_singleton actions b _ =>
    rw [List.dropLast_concat] at h₀
    obtain ⟨t, ht, hperform⟩ := after_concat.mp h
    obtain rfl := Except.ok.inj (h₀.symm.trans ht)
    rw [(run_keeps (run_of_perform hperform).2).1]
    exact PatternBox.refresh_suggestion

/-! ## Converting what the box holds -/

/-- What the box holds when a pattern was typed: the pattern, or a new suggestion in its place. -/
theorem type_content (htyped : a.pattern = some pattern) (hlength : pattern.length ≤ patternLimit) :
    (s.type a).patternBox.content =
      if s.patternBox.suggestion = s.suggestion then pattern else s.suggestion := by
  unfold Session.type
  rw [htyped]
  exact PatternBox.refresh_content hlength

/-- **What is suggested compiles.** -/
theorem Rooted.suggestion_compiles (h : s.Rooted link) :
    ∃ A, compile s.suggestion patternLimit = .ok A := by
  unfold suggestion
  rcases h.together with ⟨hnone, _⟩ | ⟨w, hw⟩
  · have hdefault : (compile defaultPattern patternLimit).isOk = true := by decide +kernel
    rw [hnone]
    show ∃ A, compile defaultPattern patternLimit = .ok A
    cases hcompile : compile defaultPattern patternLimit with
    | ok A => exact ⟨A, rfl⟩
    | error fault =>
      rw [hcompile] at hdefault
      cases hdefault
  · rw [(workbench_eq_some_iff.mp hw).1]
    exact ⟨_, (h.sound w hw).compiled⟩

/-- A pattern that compiles is reported without an error. -/
theorem Reports.of_compiles (h : s.Reports attempt)
    (hcompiles : ∃ A, compile attempt patternLimit = .ok A) :
    s.error = none ∧ s.pattern = some attempt :=
  have herror := h.error_eq_none_iff.mpr hcompiles
  ⟨herror, h.pattern_eq herror⟩

/-- Pressing the button converts what the box holds. -/
theorem Consistent.click (h : s.Consistent link attempt) (hoffers : s.offers a = true)
    (hclick : a.button = some .convert) :
    ∃ s', s.perform a = .ok s' ∧ s'.Consistent link (s.type a).patternBox.content := by
  obtain ⟨s', hrun, hs'⟩ := h.run a
  unfold attempt? at hs'
  rw [if_pos hclick] at hs'
  exact ⟨s', (perform_of_offers hoffers).trans hrun, hs'⟩

/-! ## Main results -/

/-- **When what is typed is converted.** If the run before left the suggestion as it was, the button
converts the pattern typed with it. If not, the pattern typed is lost, and the button converts what
is suggested. -/
theorem typed_pattern_converted (h₀ : after link actions.dropLast = .ok s₀)
    (h : after link actions = .ok s) (hoffers : s.offers a = true)
    (hclick : a.button = some .convert) (htyped : a.pattern = some pattern)
    (hlength : pattern.length ≤ patternLimit) :
    ∃ s', s.perform a = .ok s' ∧
      (s.suggestion = s₀.suggestion → s'.Reports pattern) ∧
      (s.suggestion ≠ s₀.suggestion → s'.error = none ∧ s'.pattern = some s.suggestion) := by
  obtain ⟨attempt, hreached⟩ := exists_reached_of_after h
  obtain ⟨s', hperform, hs'⟩ := hreached.consistent.click hoffers hclick
  rw [type_content htyped hlength, box_suggestion h₀ h] at hs'
  refine ⟨s', hperform, fun hsame => ?_, fun hchanged => ?_⟩
  · rw [if_pos hsame.symm] at hs'
    exact hs'.toReports
  · rw [if_neg hchanged.symm] at hs'
    exact hs'.toReports.of_compiles hreached.consistent.suggestion_compiles

/-- A pattern typed and the button pressed. -/
def typing (pattern : String) : Action :=
  ⟨some pattern, none, some .convert⟩

theorem offers_typing : s.offers (typing pattern) = true := by
  unfold offers
  exact Bool.or_true _

/-- A refused conversion leaves the suggestion, and what is typed after it is converted. -/
theorem typed_pattern_converted_after_refusal :
    ∃ s s', after none [typing "("] = .ok s ∧ s.perform (typing "b") = .ok s' ∧
      s'.Reports "b" := by
  have hoffered : offered none [typing "("] = true := by decide +kernel
  have hfirst : (after none []).toOption.map suggestion = some defaultPattern := by decide +kernel
  have hrefused : (after none [typing "("]).toOption.map suggestion = some defaultPattern := by
    decide +kernel
  obtain ⟨s₀, hstart, _⟩ := exists_start none
  have hafter₀ : after none [typing "("].dropLast = .ok s₀ := bind_eq_ok.mpr ⟨s₀, hstart, rfl⟩
  obtain ⟨_, s, hreached⟩ := exists_reached hoffered
  have hafter := hreached.after_eq
  rw [show after none [] = .ok s₀ from hafter₀] at hfirst
  rw [hafter] at hrefused
  have hlength : "b".length ≤ patternLimit := by decide
  obtain ⟨s', hperform, hconverted, _⟩ :=
    typed_pattern_converted hafter₀ hafter offers_typing rfl rfl hlength
  refine ⟨s, s', hafter, hperform, hconverted ?_⟩
  exact (Option.some.inj hrefused).trans (Option.some.inj hfirst).symm

/-- **A pattern typed is lost**: after `a` was converted, `b` is typed and the button pressed, and
`a` is converted again. -/
theorem typed_pattern_lost :
    ∃ s s', after none [typing "a"] = .ok s ∧ s.perform (typing "b") = .ok s' ∧
      "b".length ≤ patternLimit ∧
      ¬ ((s'.pattern = some "b" ∧ s'.error = none) ∨
        ∃ e, compile "b" patternLimit = .error (.pattern e) ∧ s'.error = some e) := by
  have hfacts : (after none [typing "a", typing "b"]).toOption.map (fun s => (s.pattern, s.error)) =
      some (some "a", none) := by decide +kernel
  cases hafter : after none [typing "a", typing "b"] with
  | error fault =>
    rw [hafter] at hfacts
    cases hfacts
  | ok s' =>
    rw [hafter] at hfacts
    obtain ⟨hpattern, herror⟩ : s'.pattern = some "a" ∧ s'.error = none := by
      simpa [Except.toOption] using hfacts
    have hactions : after none ([typing "a"] ++ [typing "b"]) = .ok s' := hafter
    obtain ⟨s, hs, hperform⟩ := after_concat.mp hactions
    refine ⟨s, s', hs, hperform, by decide, ?_⟩
    rw [hpattern, herror]
    rintro (⟨hb, _⟩ | ⟨e, _, he⟩)
    · exact absurd hb (by decide)
    · cases he

/-! ## The way out -/

/-- **What is typed again is held**: if the suggestion took its place the first time, converting the
suggestion left it as it was. -/
theorem content_of_typed_again (hrun : s.run (typing pattern) = .ok s')
    (hlength : pattern.length ≤ patternLimit) :
    (s'.type (typing pattern)).patternBox.content = pattern := by
  obtain ⟨hbox, hsuggestion⟩ := run_keeps hrun
  rw [type_content rfl hlength] at hsuggestion ⊢
  rw [hbox, show (s.type (typing pattern)).patternBox.suggestion = s.suggestion from
    PatternBox.refresh_suggestion]
  by_cases hsame : s.suggestion = s'.suggestion
  · exact if_pos hsame
  · rw [if_neg hsame]
    rcases hsuggestion with hkept | hheld
    · exact absurd hkept.symm hsame
    · split at hheld
      · exact hheld
      · exact absurd hheld.symm hsame

/-- **What is typed twice is converted.** -/
theorem typed_twice_converted (h : after link actions = .ok s)
    (hlength : pattern.length ≤ patternLimit) :
    ∃ s', after link (actions ++ [typing pattern] ++ [typing pattern]) = .ok s' ∧
      s'.Reports pattern := by
  obtain ⟨attempt, hreached⟩ := exists_reached_of_after h
  obtain ⟨t, honce, ht⟩ := hreached.consistent.click offers_typing rfl
  obtain ⟨s', htwice, hs'⟩ := ht.click offers_typing rfl
  rw [content_of_typed_again (run_of_perform honce).2 hlength] at hs'
  exact ⟨s', after_concat.mpr ⟨t, after_concat.mpr ⟨s, h, honce⟩, htwice⟩, hs'.toReports⟩

end Session

end RegexStepper

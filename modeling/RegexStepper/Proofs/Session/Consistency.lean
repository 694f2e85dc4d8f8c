import RegexStepper.Proofs.Diagnosis
import RegexStepper.Proofs.Faultless

/-!
# What the parts of a session agree on

A run changes a session in three places: typing fills the boxes, a conversion fills the slots of the
pattern, the automaton and the playback or sets the error, and settling brings the playback up to
date with the test box. The `workbench` of a session is what the three slots hold once none of them
is empty.

* `Rooted link s`: the three slots are empty and the link is the one the session was opened with, or
  they hold a sound workbench and the link is that of its pattern. All three keep it.
* `Reports attempt s`: the error is that of converting `attempt`. A conversion brings it about for
  its pattern, and nothing else touches it.
* `Consistent link attempt s`: both, and the playback plays the text of the test box. A run may
  break the latter on the way, and settling restores it.

`Reached link actions attempt s` is a session after actions that its pages offered, with the pattern
converted last. Headlines:

* `Reached.consistent`: every session reached is consistent;
* **`session_consistent`**: actions that are offered never fail, and lead to a consistent session.
-/

namespace RegexStepper

/-- A pattern, an automaton and a playback, side by side. -/
structure Workbench where
  pattern : String
  automaton : Automaton
  playback : Playback

/-- The automaton is that of the pattern, and it is the one that the playback plays over, with a
history that agrees with it. -/
structure Workbench.Sound (w : Workbench) : Prop where
  compiled : compile w.pattern patternLimit = .ok w.automaton
  /-- Both slots hold the same automaton. -/
  automaton_eq : w.playback.automaton = w.automaton
  coherent : w.playback.Coherent

/-- What is played over is the automaton of the pattern. -/
theorem Workbench.Sound.playback_compiled {w : Workbench} (h : w.Sound) :
    compile w.pattern patternLimit = .ok w.playback.automaton :=
  h.automaton_eq ▸ h.compiled

theorem Workbench.Sound.faultless {w : Workbench} (h : w.Sound) :
    w.playback.automaton.Faultless :=
  faultless_of_compile h.playback_compiled

/-- No button changes the text to play. -/
theorem Action.textAfter_of_command? {a : Action} {c : Command} (h : a.command? = some c)
    (text : List Char) : c.textAfter text = text := by
  obtain ⟨button, _, hbutton⟩ := Option.bind_eq_some_iff.mp h
  cases button with
  | convert => cases hbutton
  | reset | back | forward | toEnd =>
    cases hbutton
    rfl

namespace Session

/-- What the slots of the pattern, the automaton and the playback hold, if none of them is empty. -/
def workbench (s : Session) : Option Workbench :=
  match s.pattern, s.automaton, s.playback with
  | some pattern, some automaton, some playback => some ⟨pattern, automaton, playback⟩
  | _, _, _ => none

/-- The slots of a session opened from `link` are empty together, or hold a sound workbench whose
pattern is in the link. -/
structure Rooted (link : Option String) (s : Session) : Prop where
  /-- None of the three slots is filled, or all are. -/
  together : (s.pattern = none ∧ s.automaton = none ∧ s.playback = none) ∨
    ∃ w, s.workbench = some w
  blank : s.automaton = none → s.link = link ∧ s.testBox = none
  sound : ∀ w, s.workbench = some w → w.Sound
  link_eq : ∀ w, s.workbench = some w → s.link = some (ShareLink.encode w.pattern)

/-- The session tells how the conversion of `attempt` went. -/
structure Reports (attempt : String) (s : Session) : Prop where
  error_eq_none_iff : s.error = none ↔ ∃ A, compile attempt patternLimit = .ok A
  error_eq_some_iff : ∀ e, s.error = some e ↔ compile attempt patternLimit = .error (.pattern e)
  pattern_eq : s.error = none → s.pattern = some attempt

/-- The parts of a session opened from `link` agree, `attempt` being the pattern converted last. -/
structure Consistent (link : Option String) (attempt : String) (s : Session) : Prop
    extends Rooted link s, Reports attempt s where
  testBox_eq : ∀ w, s.workbench = some w → s.testBox = some (String.ofList w.playback.text)

variable {s s' : Session} {link : Option String} {attempt : String} {w : Workbench} {a : Action}
  {A : Automaton} {p : Playback} {command : Option Command}

/-! ## The workbench -/

theorem workbench_eq_some_iff : s.workbench = some w ↔
    s.pattern = some w.pattern ∧ s.automaton = some w.automaton ∧
      s.playback = some w.playback := by
  obtain ⟨pattern, automaton, playback⟩ := w
  unfold workbench
  split
  · rename_i hpattern hautomaton hplayback
    simp only [hpattern, hautomaton, hplayback, Option.some.injEq, Workbench.mk.injEq]
  · rename_i hempty
    exact iff_of_false nofun fun h => hempty _ _ _ h.1 h.2.1 h.2.2

theorem workbench_ne_some (hA : s.automaton = none) : s.workbench ≠ some w := by
  intro hw
  cases hA.symm.trans (workbench_eq_some_iff.mp hw).2.1

/-- What holds of the workbench holds of every one that there is. -/
theorem forall_workbench {P : Workbench → Prop} (hw : s.workbench = some w) (h : P w) :
    ∀ v, s.workbench = some v → P v := by
  intro v hv
  obtain rfl := Option.some.inj (hw.symm.trans hv)
  exact h

/-- With a sound workbench, the link is all that is left to look at. -/
theorem Rooted.of_workbench (hw : s.workbench = some w) (h : w.Sound)
    (hlink : s.link = some (ShareLink.encode w.pattern)) : s.Rooted link := by
  refine ⟨Or.inr ⟨w, hw⟩, fun hA => ?_, forall_workbench hw h, forall_workbench hw hlink⟩
  exact absurd hw (workbench_ne_some hA)

/-- Where there is an automaton, there is all of the workbench. -/
theorem Rooted.exists_workbench (h : s.Rooted link) (hA : s.automaton = some A) :
    ∃ w, s.workbench = some w ∧ w.automaton = A := by
  rcases h.together with ⟨_, hnone, _⟩ | ⟨w, hw⟩
  · cases hnone.symm.trans hA
  · exact ⟨w, hw, Option.some.inj ((workbench_eq_some_iff.mp hw).2.1.symm.trans hA)⟩

/-! ## Typing -/

theorem Rooted.type (h : s.Rooted link) (a : Action) : (s.type a).Rooted link := by
  refine ⟨h.together, fun hA => ?_, h.sound, h.link_eq⟩
  obtain ⟨hlink, hbox⟩ := h.blank hA
  refine ⟨hlink, ?_⟩
  unfold Session.type
  rw [hbox]
  rfl

theorem Reports.type (h : s.Reports attempt) (a : Action) : (s.type a).Reports attempt :=
  ⟨h.error_eq_none_iff, h.error_eq_some_iff, h.pattern_eq⟩

/-! ## Converting -/

/-- **What a conversion does**: it fills the slots with the pattern, its automaton and a new
playback of the test text, and puts the pattern into the link; or it sets the error and leaves the
rest. -/
theorem convert_cases (s : Session) (pattern : String) :
    (∃ A p, compile pattern patternLimit = .ok A ∧ p.Coherent ∧ p.automaton = A ∧
      s.convert pattern = .ok { s with
        link := some (ShareLink.encode pattern)
        error := none
        pattern := some pattern
        automaton := some A
        playback := some p }) ∨
    ∃ e, compile pattern patternLimit = .error (.pattern e) ∧
      s.convert pattern = .ok { s with error := some e } := by
  unfold convert
  cases hcompile : compile pattern patternLimit with
  | ok A =>
    obtain ⟨p, hstart, hcoherent, hautomaton, _⟩ :=
      Playback.exists_start (faultless_of_compile hcompile) s.testText.toList
    refine Or.inl ⟨A, p, rfl, hcoherent, hautomaton, ?_⟩
    simp only [hstart]
    rfl
  | error fault =>
    obtain ⟨e, rfl⟩ := onlyRefuses_compile pattern patternLimit fault hcompile
    exact Or.inr ⟨e, rfl, rfl⟩

/-- **A conversion reports on its pattern**, whatever was reported before. -/
theorem Rooted.convert (h : s.Rooted link) (pattern : String) :
    ∃ s', s.convert pattern = .ok s' ∧ s'.Rooted link ∧ s'.Reports pattern := by
  rcases convert_cases s pattern with
    ⟨A, p, hcompile, hcoherent, hautomaton, hconvert⟩ | ⟨e, hcompile, hconvert⟩
  · have hsound : Workbench.Sound ⟨pattern, A, p⟩ := ⟨hcompile, hautomaton, hcoherent⟩
    refine ⟨_, hconvert, Rooted.of_workbench rfl hsound rfl, ?_, fun e => ?_, fun _ => rfl⟩
    · exact ⟨fun _ => ⟨A, hcompile⟩, fun _ => rfl⟩
    · simp only [hcompile, reduceCtorEq]
  · refine ⟨_, hconvert, ⟨h.together, h.blank, h.sound, h.link_eq⟩, ?_, ?_, ?_⟩
    · simp only [hcompile, reduceCtorEq, exists_false]
    · intro e'
      simp only [hcompile, Option.some.injEq, Except.error.injEq, Fault.pattern.injEq]
    · rintro ⟨⟩

/-! ## Settling -/

/-- Commands on a coherent playback of an automaton that never fails are carried out one by one. -/
theorem exists_play {p : Playback} (h : p.Coherent) (hA : p.automaton.Faultless)
    (commands : List Command) :
    ∃ q, play p commands = .ok q ∧ q.Coherent ∧ q.automaton = p.automaton ∧
      q.text = commands.foldl Command.textAfter p.text := by
  induction commands generalizing p with
  | nil => exact ⟨p, rfl, h, rfl, rfl⟩
  | cons c rest ih =>
    obtain ⟨q, hrun, hq, hautomaton, htext⟩ := h.run_command hA c
    obtain ⟨r, hplay, hr, hautomaton', htext'⟩ := ih hq (hautomaton ▸ hA)
    refine ⟨r, ?_, hr, hautomaton'.trans hautomaton, ?_⟩
    · rw [play, hrun]
      exact hplay
    · rw [htext', htext]
      rfl

/-- The commands that bring a playback up to date with the test box. -/
def update (s : Session) (p : Playback) : List Command :=
  if s.testText.toList = p.text then [] else [.setText s.testText.toList]

/-- Without an automaton there is nothing to settle. -/
theorem settle_of_none (hA : s.automaton = none) : s.settle command = .ok s := by
  unfold settle
  rw [hA]

/-- With an automaton and its playback, the playback and the test box are what settling changes. -/
theorem settle_of_some (hA : s.automaton = some A) (hp : s.playback = some p) :
    s.settle command =
      (fun q => { s with
        playback := some q
        testBox := some s.testText }) <$> play p (s.update p ++ command.toList) := by
  unfold settle
  rw [hA, played_of_some hp]
  rfl

/-- **How settling succeeds**, in any session. -/
theorem settle_cases (h : s.settle command = .ok s') :
    (s.automaton = none ∧ s' = s) ∨
      ∃ A p q, s.automaton = some A ∧ s.playback = some p ∧
        play p (s.update p ++ command.toList) = .ok q ∧
        s' = { s with playback := some q, testBox := some s.testText } := by
  rcases Option.eq_none_or_eq_some s.automaton with hA | ⟨A, hA⟩
  · exact Or.inl ⟨hA, Except.ok.inj (h.symm.trans (settle_of_none hA))⟩
  rcases Option.eq_none_or_eq_some s.playback with hp | ⟨p, hp⟩
  · unfold settle at h
    rw [hA, played_of_none hp] at h
    cases h
  · rw [settle_of_some hA hp] at h
    obtain ⟨q, hplay, rfl⟩ := map_eq_ok.mp h
    exact Or.inr ⟨A, p, q, hA, hp, hplay, rfl⟩

/-- **What settling does**: afterwards the playback plays the text of the test box. -/
theorem exists_settle (hw : s.workbench = some w) (hsound : w.Sound) (a : Action) :
    ∃ q, s.settle a.command? = .ok { s with
        playback := some q
        testBox := some s.testText } ∧
      q.Coherent ∧ q.automaton = w.automaton ∧ q.text = s.testText.toList := by
  obtain ⟨q, hplay, hcoherent, hautomaton, htext⟩ :=
    exists_play hsound.coherent hsound.faultless (s.update w.playback ++ a.command?.toList)
  obtain ⟨_, hA, hp⟩ := workbench_eq_some_iff.mp hw
  refine ⟨q, ?_, hcoherent, hautomaton.trans hsound.automaton_eq, ?_⟩
  · rw [settle_of_some hA hp]
    exact map_eq_ok.mpr ⟨q, hplay, rfl⟩
  · have hbutton : ∀ text, a.command?.toList.foldl Command.textAfter text = text := by
      intro text
      cases hcommand : a.command? with
      | none => rfl
      | some c => exact Action.textAfter_of_command? hcommand text
    rw [htext, List.foldl_append, hbutton, update]
    split
    · rename_i hsame
      exact hsame.symm
    · rfl

/-- **Settling makes the session consistent.** -/
theorem Rooted.settle (h : s.Rooted link) (hreports : s.Reports attempt) (a : Action) :
    ∃ s', s.settle a.command? = .ok s' ∧ s'.Consistent link attempt := by
  rcases h.together with ⟨_, hA, _⟩ | ⟨w, hw⟩
  · exact ⟨s, settle_of_none hA, h, hreports, fun w hw => absurd hw (workbench_ne_some hA)⟩
  · obtain ⟨q, hsettle, hcoherent, hautomaton, htext⟩ := exists_settle hw (h.sound w hw) a
    obtain ⟨hpattern, hA, _⟩ := workbench_eq_some_iff.mp hw
    have hw' : workbench { s with playback := some q, testBox := some s.testText } =
        some { w with playback := q } := workbench_eq_some_iff.mpr ⟨hpattern, hA, rfl⟩
    have hsound : Workbench.Sound { w with playback := q } :=
      ⟨(h.sound w hw).compiled, hautomaton, hcoherent⟩
    refine ⟨_, hsettle, Rooted.of_workbench hw' hsound (h.link_eq w hw),
      ⟨hreports.error_eq_none_iff, hreports.error_eq_some_iff, hreports.pattern_eq⟩,
      forall_workbench hw' ?_⟩
    simp only [htext, String.ofList_toList]

/-! ## Runs -/

/-- The pattern that an action converts, if it converts one. -/
def attempt? (s : Session) (a : Action) : Option String :=
  if a.button = some .convert then some (s.type a).patternBox.content else none

/-- A session opens consistent. -/
theorem exists_start (link : Option String) :
    ∃ s, start link = .ok s ∧ s.Consistent link (firstAttempt link) := by
  have hempty : ∀ w, (blank link).workbench ≠ some w := fun w => workbench_ne_some rfl
  have hrooted : (blank link).Rooted link :=
    ⟨Or.inl ⟨rfl, rfl, rfl⟩, fun _ => ⟨rfl, rfl⟩, fun w hw => absurd hw (hempty w),
      fun w hw => absurd hw (hempty w)⟩
  obtain ⟨s, hconvert, hs, hreports⟩ := hrooted.convert (firstAttempt link)
  have hboxed : ({ s with patternBox := .ofSuggestion s.suggestion } : Session).Rooted link :=
    ⟨hs.together, hs.blank, hs.sound, hs.link_eq⟩
  obtain ⟨s', hsettle, hs'⟩ := hboxed.settle
    ⟨hreports.error_eq_none_iff, hreports.error_eq_some_iff, hreports.pattern_eq⟩
    ⟨none, none, none⟩
  refine ⟨s', ?_, hs'⟩
  unfold start
  exact bind_eq_ok.mpr ⟨s, hconvert, hsettle⟩

theorem run_of_click (h : a.button = some .convert) :
    s.run a =
      (s.type a).convert (s.type a).patternBox.content >>= fun t => t.settle a.command? := by
  unfold Session.run
  simp only [if_pos h]

theorem run_of_no_click (h : a.button ≠ some .convert) :
    s.run a = (s.type a).settle a.command? := by
  unfold Session.run
  simp only [if_neg h]
  rfl

/-- **A run keeps a session consistent**, and what it reports is the pattern it converts. -/
theorem Consistent.run (h : s.Consistent link attempt) (a : Action) :
    ∃ s', s.run a = .ok s' ∧ s'.Consistent link ((s.attempt? a).getD attempt) := by
  have hrooted := h.toRooted.type a
  unfold attempt?
  by_cases hclick : a.button = some .convert
  · obtain ⟨t, hconvert, ht, hreports⟩ := hrooted.convert (s.type a).patternBox.content
    obtain ⟨s', hsettle, hs'⟩ := ht.settle hreports a
    rw [run_of_click hclick, if_pos hclick]
    exact ⟨s', bind_eq_ok.mpr ⟨t, hconvert, hsettle⟩, hs'⟩
  · obtain ⟨s', hsettle, hs'⟩ := hrooted.settle (h.toReports.type a) a
    rw [run_of_no_click hclick, if_neg hclick]
    exact ⟨s', hsettle, hs'⟩

/-- A session of `link` after some actions that were offered, and the pattern it converted last. -/
inductive Reached (link : Option String) : List Action → String → Session → Prop where
  | start {s : Session} : start link = .ok s → Reached link [] (firstAttempt link) s
  | perform {actions : List Action} {attempt : String} {s s' : Session} {a : Action} :
    Reached link actions attempt s → s.perform a = .ok s' →
    Reached link (actions ++ [a]) ((s.attempt? a).getD attempt) s'

variable {actions : List Action}

/-- An action that is carried out was offered. -/
theorem run_of_perform (h : s.perform a = .ok s') : s.offers a = true ∧ s.run a = .ok s' := by
  cases hoffers : s.offers a with
  | true => exact ⟨rfl, (perform_of_offers hoffers).symm.trans h⟩
  | false =>
    rw [perform_eq_noSuchControl hoffers] at h
    cases h

/-- **Every session reached is consistent.** -/
theorem Reached.consistent (h : Reached link actions attempt s) : s.Consistent link attempt := by
  induction h with
  | start hstart =>
    obtain ⟨s', hstart', hs'⟩ := exists_start link
    obtain rfl := Except.ok.inj (hstart.symm.trans hstart')
    exact hs'
  | perform _ hperform ih =>
    obtain ⟨s', hrun', hs'⟩ := ih.run _
    obtain rfl := Except.ok.inj ((run_of_perform hperform).2.symm.trans hrun')
    exact hs'

/-- The last of some actions is performed on the session before it. -/
theorem after_concat :
    after link (actions ++ [a]) = .ok s' ↔
      ∃ s, after link actions = .ok s ∧ s.perform a = .ok s' := by
  have hafter : after link (actions ++ [a]) = after link actions >>= fun s => s.perform a := by
    unfold after
    cases start link with
    | error fault => rfl
    | ok first =>
      show (actions ++ [a]).foldlM perform first = _
      rw [List.foldlM_append]
      refine congrArg _ (funext fun s => ?_)
      exact bind_pure (s.perform a)
  rw [hafter, bind_eq_ok]

/-- A session reached is the one that the actions lead to. -/
theorem Reached.after_eq (h : Reached link actions attempt s) : after link actions = .ok s := by
  induction h with
  | start hstart => exact bind_eq_ok.mpr ⟨_, hstart, rfl⟩
  | perform _ hperform ih => exact after_concat.mpr ⟨_, ih, hperform⟩

/-- A session that actions lead to is reached. -/
theorem exists_reached_of_after (h : after link actions = .ok s) :
    ∃ attempt, Reached link actions attempt s := by
  induction actions using List.reverseRecOn generalizing s with
  | nil =>
    obtain ⟨first, hstart, hfirst⟩ := bind_eq_ok.mp h
    obtain rfl := Except.ok.inj hfirst
    exact ⟨_, .start hstart⟩
  | append_singleton actions a ih =>
    obtain ⟨s₀, hs₀, hperform⟩ := after_concat.mp h
    obtain ⟨attempt, hreached⟩ := ih hs₀
    exact ⟨_, hreached.perform hperform⟩

/-- An action that is offered leads on. -/
theorem Reached.exists_perform (h : Reached link actions attempt s) (hoffers : s.offers a = true) :
    ∃ s', s.perform a = .ok s' ∧
      Reached link (actions ++ [a]) ((s.attempt? a).getD attempt) s' := by
  obtain ⟨s', hrun, _⟩ := h.consistent.run a
  have hperform := (perform_of_offers hoffers).trans hrun
  exact ⟨s', hperform, h.perform hperform⟩

/-- Each of the actions is offered when its turn comes. -/
def offersAll (s : Session) : List Action → Bool
  | [] => true
  | a :: rest =>
    s.offers a &&
      match s.perform a with
      | .ok s' => s'.offersAll rest
      | .error _ => true

/-- The pages of a session of the link offer each of the actions when its turn comes. -/
def offered (link : Option String) (actions : List Action) : Bool :=
  match start link with
  | .ok s => s.offersAll actions
  | .error _ => true

/-- Actions that are offered lead on. -/
theorem Reached.exists_after {rest : List Action} (h : Reached link actions attempt s)
    (hoffered : s.offersAll rest = true) :
    ∃ attempt' s', Reached link (actions ++ rest) attempt' s' := by
  induction rest generalizing actions attempt s with
  | nil => exact ⟨attempt, s, by rwa [List.append_nil]⟩
  | cons a rest ih =>
    obtain ⟨hoffers, hrest⟩ := Bool.and_eq_true_iff.mp hoffered
    obtain ⟨s', hperform, hs'⟩ := h.exists_perform hoffers
    rw [hperform] at hrest
    obtain ⟨attempt', t, ht⟩ := ih hs' hrest
    rw [List.append_assoc] at ht
    exact ⟨attempt', t, ht⟩

/-- **Actions that are offered never fail.** -/
theorem exists_reached (h : offered link actions = true) :
    ∃ attempt s, Reached link actions attempt s := by
  obtain ⟨s, hstart, _⟩ := exists_start link
  unfold offered at h
  rw [hstart] at h
  exact (Reached.start hstart).exists_after h

/-! ## Main result -/

/-- **The parts of a session agree after every run**: there are a pattern, its automaton and the
playback over this automaton, or none of them; the boxes, the link and the error go with them; and
the history is that of the text. -/
theorem session_consistent (h : offered link actions = true) :
    ∃ attempt s, after link actions = .ok s ∧ Reached link actions attempt s ∧
      s.Consistent link attempt ∧
      ∀ w, s.workbench = some w → ∀ i (_ : i < w.playback.history.size),
        w.playback.automaton.reached (w.playback.text.take i) = .ok w.playback.history[i] := by
  obtain ⟨attempt, s, hs⟩ := exists_reached h
  refine ⟨attempt, s, hs.after_eq, hs, hs.consistent, fun w hw => ?_⟩
  exact (hs.consistent.sound w hw).coherent.reached_eq

/-- From the link of `(`: a pattern, a text to play, both changed by a conversion that is refused,
and the new text played to its end. -/
def detour : List Action :=
  [⟨some "a|b", none, some .convert⟩, ⟨none, some "ba", some .forward⟩,
    ⟨some "x(", some "b", some .convert⟩, ⟨none, none, some .toEnd⟩]

/-- The pattern that compiled last, what is played of which text, and what is reported. -/
def outline (s : Session) : Option String × Option (List Char × Nat) × Option String :=
  (s.pattern, s.playback.map fun p => (p.text, p.index), s.error.map (·.message))

/-- After the detour the refusal is reported beside the pattern before it and the new text. -/
theorem session_consistent_detour :
    offered (some "KA==") detour = true ∧
      ∃ attempt s, after (some "KA==") detour = .ok s ∧ s.Consistent (some "KA==") attempt ∧
        s.outline = (some "a|b", some (['b'], 1),
          some "Unmatched opening parenthesis (at position 1)") := by
  have hoffered : offered (some "KA==") detour = true := by decide +kernel
  obtain ⟨attempt, s, hafter, _, hs, _⟩ := session_consistent hoffered
  have houtline : (after (some "KA==") detour).toOption.map outline =
      some (some "a|b", some (['b'], 1),
        some "Unmatched opening parenthesis (at position 1)") := by decide +kernel
  rw [hafter] at houtline
  exact ⟨hoffered, attempt, s, hafter, hs, Option.some.inj houtline⟩

end Session

end RegexStepper

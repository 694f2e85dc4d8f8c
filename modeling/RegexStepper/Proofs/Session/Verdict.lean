import RegexStepper.Proofs.Session.Consistency
import RegexStepper.Proofs.ViablePrefix

/-!
# The verdict that a page shows

`InLanguage pattern text`: the text belongs to the language that the grammar gives to the pattern.
`Verdict.Right pattern p`: what a verdict says of a playback is so. The verdict on a sound workbench
is right (`Workbench.Sound.verdict`): the automaton accepts what its pattern means, and it has no
dead state, so that a set without states tells of every continuation.

A page shows the verdict by one of three messages or by none (`Page.saysAccepted_iff`,
`Page.saysRejected_iff`); its other message, on the last conversion, is none of them.

Headline: **`verdict_shown`**: what the page of a session says of the test text is so.
-/

namespace RegexStepper

/-- The text belongs to the language of the pattern. -/
def InLanguage (pattern : String) (text : List Char) : Prop :=
  ∃ r, Means pattern r ∧ r.Matches (Regex.symbols text)

section

variable {pattern : String} {r : Regex} {A : Automaton}

theorem Means.inLanguage_iff (h : Means pattern r) (text : List Char) :
    InLanguage pattern text ↔ r.Matches (Regex.symbols text) := by
  constructor
  · rintro ⟨r', hmeans, hmatches⟩
    rwa [h.unique hmeans]
  · intro hmatches
    exact ⟨r, h, hmatches⟩

/-- An automaton that realizes the meaning of a pattern accepts its language. -/
theorem Means.accepts_iff (h : Means pattern r) (hA : A.Realizes r) (text : List Char) :
    A.accepts text = .ok true ↔ InLanguage pattern text := by
  rw [hA.accepts_true_iff, hA.accepts_iff, h.inLanguage_iff]

end

/-! ## Right verdicts -/

/-- What the verdict says of the playback is so. -/
def Verdict.Right (pattern : String) (p : Playback) : Verdict → Prop
  | accepted => p.index = p.text.length ∧ InLanguage pattern p.text
  | rejected => p.index = p.text.length ∧ ¬ InLanguage pattern p.text
  | stuck => p.index < p.text.length ∧ ∀ v, ¬ InLanguage pattern (p.text.take p.index ++ v)
  | undecided => p.index < p.text.length ∧ ∃ v, InLanguage pattern (p.text.take p.index ++ v)

namespace Verdict.Right

variable {pattern : String} {p : Playback} {verdict : Verdict}

theorem eq_accepted_iff (h : verdict.Right pattern p) :
    verdict = .accepted ↔ p.index = p.text.length ∧ InLanguage pattern p.text := by
  cases verdict with
  | accepted => exact ⟨fun _ => h, fun _ => rfl⟩
  | rejected => exact iff_of_false (by decide) fun hin => h.2 hin.2
  | stuck => exact iff_of_false (by decide) fun hin => Nat.ne_of_lt h.1 hin.1
  | undecided => exact iff_of_false (by decide) fun hin => Nat.ne_of_lt h.1 hin.1

/-- A text that is stuck on the way is rejected: it is one of its own continuations. -/
theorem not_inLanguage (h : verdict.Right pattern p) (hv : verdict = .rejected ∨ verdict = .stuck) :
    ¬ InLanguage pattern p.text := by
  rcases hv with rfl | rfl
  · exact h.2
  · have hnever := h.2 (p.text.drop p.index)
    rwa [List.take_append_drop] at hnever

theorem viable (h : verdict.Right pattern p) (haccepted : verdict ≠ .accepted)
    (hrejected : ¬ (verdict = .rejected ∨ verdict = .stuck)) :
    p.index < p.text.length ∧ ∃ v, InLanguage pattern (p.text.take p.index ++ v) := by
  cases verdict with
  | accepted => exact absurd rfl haccepted
  | rejected => exact absurd (Or.inl rfl) hrejected
  | stuck => exact absurd (Or.inr rfl) hrejected
  | undecided => exact h

end Verdict.Right

/-- **The verdict on a sound workbench is right.** -/
theorem Workbench.Sound.verdict {w : Workbench} (h : w.Sound) {verdict : Verdict}
    (hverdict : Verdict.ofPlayback w.playback = .ok verdict) :
    verdict.Right w.pattern w.playback := by
  obtain ⟨r, hmeans, hrealizes⟩ := exists_realizes_of_compile h.playback_compiled
  have hcoherent := h.coherent
  set p := w.playback
  have hle : p.index ≤ p.text.length := by
    have := hcoherent.index_lt
    have := hcoherent.size_le
    omega
  by_cases hend : p.index = p.text.length
  · have hatEnd : p.atEnd = true := beq_iff_eq.mpr hend
    have haccepted : p.isAccepted = p.automaton.accepts p.text := by
      rw [hcoherent.isAccepted_atEnd hend, Automaton.accepts_eq]
    obtain ⟨accepted, haccepts, _⟩ :=
      hrealizes.indexed.accepts_spec hrealizes.start_hasId p.text
    have hlanguage := hmeans.accepts_iff hrealizes p.text
    simp only [Verdict.ofPlayback, hatEnd, if_true, haccepted, haccepts] at hverdict
    rw [haccepts] at hlanguage
    cases accepted with
    | true =>
      cases hverdict
      exact ⟨hend, hlanguage.mp rfl⟩
    | false =>
      cases hverdict
      exact ⟨hend, fun hin => nomatch hlanguage.mpr hin⟩
  · have hatEnd : p.atEnd = false := beq_eq_false_iff_ne.mpr hend
    have hlt : p.index < p.text.length := Nat.lt_of_le_of_ne hle hend
    obtain ⟨active, hactive, hviable⟩ :=
      hrealizes.viable_iff hmeans.spellable (p.text.take p.index)
    simp only [hmeans.accepts_iff hrealizes] at hviable
    have hstuck : p.isStuck = .ok active.isEmpty :=
      map_eq_ok.mpr ⟨active, hcoherent.current_eq.trans hactive, rfl⟩
    simp only [Verdict.ofPlayback, hatEnd, Bool.false_eq_true, if_false, hstuck] at hverdict
    cases hempty : active.isEmpty with
    | true =>
      rw [hempty] at hverdict hviable
      cases hverdict
      exact ⟨hlt, fun v hv => nomatch hviable.mpr ⟨v, hv⟩⟩
    | false =>
      rw [hempty] at hverdict hviable
      cases hverdict
      exact ⟨hlt, hviable.mp rfl⟩

/-! ## Messages -/

namespace Page

/-- The page shows the message that the text is accepted. -/
def SaysAccepted (page : Page) : Prop :=
  "✅ Accepted" ∈ page.successes

/-- The page shows one of the two messages that the text is rejected. -/
def SaysRejected (page : Page) : Prop :=
  "❌ Rejected" ∈ page.failures ∨ "❌ Rejected (no active states left)" ∈ page.failures

variable {page : Page} {board : Board}

theorem saysAccepted_iff (h : page.board = some board) :
    page.SaysAccepted ↔ board.verdict = .accepted := by
  unfold SaysAccepted successes
  rw [h]
  cases hverdict : board.verdict <;> simp [hverdict, Verdict.success?]

/-- The message on a conversion is not one on the text. -/
theorem error_ne (message : String) :
    "Error: " ++ message ≠ "❌ Rejected" ∧
      "Error: " ++ message ≠ "❌ Rejected (no active states left)" := by
  have hhead : ("Error: " ++ message).toList.head? = some 'E' := by
    rw [String.toList_append]
    rfl
  constructor
  · intro h
    rw [h] at hhead
    exact absurd hhead (by decide)
  · intro h
    rw [h] at hhead
    exact absurd hhead (by decide)

theorem saysRejected_iff {s : Session} (herror : page.error = s.error.map ("Error: " ++ ·.message))
    (h : page.board = some board) :
    page.SaysRejected ↔ board.verdict = .rejected ∨ board.verdict = .stuck := by
  have hother : ∀ m ∈ page.error, m ≠ "❌ Rejected" ∧
      m ≠ "❌ Rejected (no active states left)" := by
    intro m hm
    rw [herror] at hm
    obtain ⟨e, _, rfl⟩ := Option.map_eq_some_iff.mp hm
    exact error_ne e.message
  unfold SaysRejected failures
  rw [h]
  cases hmessage : page.error with
  | none => cases hverdict : board.verdict <;> simp [hverdict, Verdict.failure?]
  | some m =>
    obtain ⟨hne, hne'⟩ := hother m hmessage
    cases hverdict : board.verdict <;>
      simp [hverdict, Verdict.failure?, hne.symm, hne'.symm]

end Page

namespace Session

variable {s : Session} {link : Option String} {attempt : String} {actions : List Action}

/-- **Every consistent session has its page.** -/
theorem Rooted.exists_page (h : s.Rooted link) :
    ∃ page, Page.ofSession s = .ok page ∧ page.error = s.error.map ("Error: " ++ ·.message) ∧
      ∀ w, s.workbench = some w → ∃ board, page.board = some board ∧
        Verdict.ofPlayback w.playback = .ok board.verdict := by
  unfold Page.ofSession
  rcases h.together with ⟨_, hA, _⟩ | ⟨w, hw⟩
  · rw [hA]
    exact ⟨_, rfl, rfl, fun w hw => absurd hw (workbench_ne_some hA)⟩
  · obtain ⟨_, hA, hp⟩ := workbench_eq_some_iff.mp hw
    obtain ⟨board, hboard, hverdict⟩ := (h.sound w hw).coherent.exists_board w.automaton
    rw [hA]
    refine ⟨⟨s.error.map ("Error: " ++ ·.message), some board⟩, ?_, rfl,
      forall_workbench hw ⟨board, rfl, hverdict⟩⟩
    exact bind_eq_ok.mpr ⟨_, played_of_some hp, bind_eq_ok.mpr ⟨board, hboard, rfl⟩⟩

/-- **What the page says of the test text is so.** Once there is an automaton, the page says that
the text is accepted iff all of it is consumed and it belongs to the language of the pattern; it
says that the text is rejected only if it does not belong to it; and it says neither only while
there is more of the text to consume and what is consumed can be continued to a text that does. -/
theorem verdict_shown (h : offered link actions = true) :
    ∃ s page, after link actions = .ok s ∧ Page.ofSession s = .ok page ∧
      ∀ A, s.automaton = some A → ∃ w text, s.workbench = some w ∧ w.automaton = A ∧
        s.testBox = some text ∧
        (page.SaysAccepted ↔
          w.playback.index = text.length ∧ InLanguage w.pattern text.toList) ∧
        (page.SaysRejected → ¬ InLanguage w.pattern text.toList) ∧
        (¬ page.SaysAccepted → ¬ page.SaysRejected → w.playback.index < text.length ∧
          ∃ v, InLanguage w.pattern (text.toList.take w.playback.index ++ v)) := by
  obtain ⟨attempt, s, hs⟩ := exists_reached h
  have hconsistent := hs.consistent
  obtain ⟨page, hpage, herror, hboards⟩ := hconsistent.exists_page
  refine ⟨s, page, hs.after_eq, hpage, fun A hA => ?_⟩
  obtain ⟨w, hw, hautomaton⟩ := hconsistent.exists_workbench hA
  obtain ⟨board, hboard, hverdict⟩ := hboards w hw
  have hright := (hconsistent.sound w hw).verdict hverdict
  refine ⟨w, _, hw, hautomaton, hconsistent.testBox_eq w hw, ?_⟩
  rw [Page.saysAccepted_iff hboard, Page.saysRejected_iff herror hboard]
  simp only [String.toList_ofList, String.length_ofList]
  refine ⟨hright.eq_accepted_iff, hright.not_inLanguage, fun haccepted hrejected => ?_⟩
  exact hright.viable haccepted hrejected

/-- The page after the detour says that `b` is accepted, by the pattern before the refused one. -/
theorem verdict_shown_detour :
    offered (some "KA==") detour = true ∧
      ∃ s page w, after (some "KA==") detour = .ok s ∧ Page.ofSession s = .ok page ∧
        s.workbench = some w ∧ s.testBox = some "b" ∧ page.SaysAccepted ∧
        w.playback.index = 1 ∧ InLanguage w.pattern ['b'] := by
  have hoffered : offered (some "KA==") detour = true := by decide +kernel
  obtain ⟨s, page, hafter, hpage, hverdict⟩ := verdict_shown hoffered
  have hfacts : (after (some "KA==") detour).toOption.map (fun s =>
      (s.automaton.isSome, s.testBox, (Page.ofSession s).toOption.map Page.successes)) =
      some (true, some "b", some ["✅ Accepted"]) := by decide +kernel
  rw [hafter] at hfacts
  obtain ⟨hsome, hbox, hsuccesses⟩ :
      s.automaton.isSome = true ∧ s.testBox = some "b" ∧ page.successes = ["✅ Accepted"] := by
    simpa [hpage, Except.toOption] using hfacts
  obtain ⟨A, hA⟩ := Option.isSome_iff_exists.mp hsome
  obtain ⟨w, text, hw, _, htext, haccepted, _⟩ := hverdict A hA
  obtain rfl := Option.some.inj (hbox.symm.trans htext)
  have hsays : page.SaysAccepted := by
    unfold Page.SaysAccepted
    rw [hsuccesses]
    exact List.mem_singleton_self _
  obtain ⟨hindex, hlanguage⟩ := haccepted.mp hsays
  exact ⟨hoffered, s, page, w, hafter, hpage, hw, hbox, hsays, hindex, hlanguage⟩

end Session

end RegexStepper

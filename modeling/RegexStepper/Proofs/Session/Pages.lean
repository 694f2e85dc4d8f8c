import RegexStepper.Proofs.Session.Verdict

/-!
# A session never fails

`pages link actions` opens a session, performs the actions one after the other and draws the page of
each run. Nothing on the way catches a fault: a look-up of a state, of an entry of the history or of
a character that is out of range would be the fault of the whole.

An action that is offered keeps the session consistent, and a consistent session has its page; an
action that is not offered ends the session without a run (`Consistent.pagesFrom_cases`). Headline:

* **`every_page_shown`**: a session shows all its pages iff each action is offered when its turn
  comes, and it has no other way to fail; a pattern that does not compile is refused with an error
  of the pattern; and the tokens of a pattern can be printed, before and after reordering.
-/

namespace RegexStepper

namespace Session

variable {s s' : Session} {link : Option String} {attempt : String} {a : Action} {page : Page}
  {actions : List Action}

/-- The page of a session, then the page after each of some actions. -/
def pagesFrom (s : Session) : List Action → Except Fault (List Page)
  | [] => return [← Page.ofSession s]
  | a :: rest => return (← Page.ofSession s) :: (← (← s.perform a).pagesFrom rest)

/-- The pages of a session of the link: the first one, then one after each action. -/
def pages (link : Option String) (actions : List Action) : Except Fault (List Page) := do
  (← start link).pagesFrom actions

/-! ## One action -/

theorem pagesFrom_nil (hpage : Page.ofSession s = .ok page) : s.pagesFrom [] = .ok [page] := by
  rw [pagesFrom, hpage]
  rfl

theorem pagesFrom_of_ok (hpage : Page.ofSession s = .ok page) (hperform : s.perform a = .ok s') :
    s.pagesFrom (a :: actions) = (page :: ·) <$> s'.pagesFrom actions := by
  rw [pagesFrom, hpage, hperform]
  rfl

theorem pagesFrom_of_error {fault : Fault} (hpage : Page.ofSession s = .ok page)
    (hperform : s.perform a = .error fault) : s.pagesFrom (a :: actions) = .error fault := by
  rw [pagesFrom, hpage, hperform]
  rfl

theorem offersAll_of_ok (hoffers : s.offers a = true) (hperform : s.perform a = .ok s') :
    s.offersAll (a :: actions) = s'.offersAll actions := by
  rw [offersAll, hoffers, hperform, Bool.true_and]

theorem offersAll_of_not_offers (hoffers : s.offers a = false) :
    s.offersAll (a :: actions) = false := by
  rw [offersAll, hoffers, Bool.false_and]

/-! ## Runs -/

/-- **A consistent session shows its page after each action**, or stops at one that is not
offered. -/
theorem Consistent.pagesFrom_cases (h : s.Consistent link attempt) (actions : List Action) :
    (s.offersAll actions = true ∧
      ∃ shown, s.pagesFrom actions = .ok shown ∧ shown.length = actions.length + 1) ∨
    (s.offersAll actions = false ∧ s.pagesFrom actions = .error .noSuchControl) := by
  induction actions generalizing s attempt with
  | nil =>
    obtain ⟨page, hpage, _⟩ := h.exists_page
    exact Or.inl ⟨rfl, [page], pagesFrom_nil hpage, rfl⟩
  | cons a rest ih =>
    obtain ⟨page, hpage, _⟩ := h.exists_page
    cases hoffers : s.offers a with
    | true =>
      obtain ⟨s', hrun, hs'⟩ := h.run a
      have hperform := (perform_of_offers hoffers).trans hrun
      rw [offersAll_of_ok hoffers hperform, pagesFrom_of_ok hpage hperform]
      rcases ih hs' with ⟨hrest, shown, hshown, hlength⟩ | ⟨hrest, hfault⟩
      · refine Or.inl ⟨hrest, page :: shown, by rw [hshown]; rfl, ?_⟩
        rw [List.length_cons, List.length_cons, hlength]
      · exact Or.inr ⟨hrest, by rw [hfault]; rfl⟩
    | false =>
      refine Or.inr ⟨offersAll_of_not_offers hoffers, ?_⟩
      exact pagesFrom_of_error hpage (perform_eq_noSuchControl hoffers)

theorem pages_cases (link : Option String) (actions : List Action) :
    (offered link actions = true ∧
      ∃ shown, pages link actions = .ok shown ∧ shown.length = actions.length + 1) ∨
    (offered link actions = false ∧ pages link actions = .error .noSuchControl) := by
  obtain ⟨s, hstart, hs⟩ := exists_start link
  unfold offered pages
  rw [hstart]
  exact hs.pagesFrom_cases actions

/-! ## Main result -/

/-- **A session never fails.** From any link and with any texts typed, all pages are drawn iff each
action is offered when its turn comes, and the one fault there can be is an action that the page
does not offer. Whatever the pattern and the limit, a compilation that fails has an error of the
pattern, and the tokens of the pattern have their text, before and after reordering. -/
theorem every_page_shown (link : Option String) (actions : List Action) :
    ((∃ shown, pages link actions = .ok shown ∧ shown.length = actions.length + 1) ↔
      offered link actions = true) ∧
    (∀ fault, pages link actions = .error fault → fault = .noSuchControl) ∧
    ∀ pattern : String,
      (∀ limit fault, compile pattern limit = .error fault → ∃ e, fault = .pattern e) ∧
      (∀ ts, Token.joinedOfPattern pattern = .ok ts → ∃ text, Token.textOf ts = .ok text) ∧
      ∀ ts, ReversePolish.ofPattern pattern = .ok ts → ∃ text, Token.textOf ts = .ok text := by
  refine ⟨?_, ?_, fun pattern => ⟨onlyRefuses_compile pattern, fun ts hts => ?_, fun ts hts => ?_⟩⟩
  · rcases pages_cases link actions with ⟨hoffered, hshown⟩ | ⟨hoffered, hfault⟩
    · exact ⟨fun _ => hoffered, fun _ => hshown⟩
    · rw [hoffered, hfault]
      constructor
      · rintro ⟨_, hshown, _⟩
        cases hshown
      · rintro ⟨⟩
  · intro fault hfault
    rcases pages_cases link actions with ⟨_, shown, hshown, _⟩ | ⟨_, hfault'⟩
    · cases hfault.symm.trans hshown
    · exact Except.error.inj (hfault.symm.trans hfault')
  · exact Token.exists_textOf (Token.known_of_joinedOfPattern hts)
  · exact Token.exists_textOf (ReversePolish.known_of_ofPattern hts)

/-- Conversions that are refused, one of them of the link, and the pages of all runs. -/
theorem every_page_shown_detour :
    ∃ shown, pages (some "KA==") detour = .ok shown ∧ shown.length = detour.length + 1 :=
  (every_page_shown (some "KA==") detour).1.mpr (by decide +kernel)

end Session

end RegexStepper

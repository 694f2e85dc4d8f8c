import RegexStepper.Proofs.PatternLanguage

/-!
# Viable prefixes

A compiled automaton has no dead state, so a state is active as long as the text can be continued to
an accepted one, and no longer.

* `Automaton.Realizes.viable_iff`: this for an automaton that realizes an expression whose symbols
  are single characters (`Regex.Spellable`), as those of a pattern are (`Means.spellable`);
* **`compiled_stuck_iff`**: the set reached by a text is empty, and a playback is stuck, iff no
  continuation of what has been consumed is accepted.
-/

namespace RegexStepper

/-! ## Symbols of a pattern -/

namespace Regex

/-- The symbols of the expression are single characters, so that a text can spell them. -/
def Spellable (r : Regex) : Prop :=
  ∀ s ∈ r.letters, ∃ c : Char, s = c.toString

/-- Symbols that are single characters are the symbols of a text. -/
theorem exists_symbols_eq {w : List String} (h : ∀ s ∈ w, ∃ c : Char, s = c.toString) :
    ∃ text, symbols text = w := by
  induction w with
  | nil => exact ⟨[], rfl⟩
  | cons s w ih =>
    obtain ⟨c, rfl⟩ := h s List.mem_cons_self
    obtain ⟨text, rfl⟩ := ih fun u hu => h u (List.mem_cons_of_mem _ hu)
    exact ⟨c :: text, rfl⟩

end Regex

/-- A quantifier adds no letters. -/
theorem Tree.letters_quantify (r : Regex) (k : Kind) : (quantify r k).letters = r.letters := by
  cases k <;> rfl

/-- A symbol in the meaning of a tree is the text of a literal of the tree. -/
theorem Tree.exists_literal {tree : Tree} {s : String} (h : s ∈ tree.regex.letters) :
    ∃ t ∈ tree.spelling, t.kind = .literal ∧ t.value = some s := by
  induction tree with
  | operand t =>
    unfold regex at h
    split at h
    · rename_i hkind
      cases hvalue : t.value with
      | none =>
        rw [hvalue] at h
        cases h
      | some letter =>
        rw [hvalue] at h
        obtain rfl := List.mem_singleton.mp h
        exact ⟨t, List.mem_cons_self, hkind, hvalue⟩
    · cases h
  | group opening body closing ih =>
    obtain ⟨t, ht, hliteral⟩ := ih h
    exact ⟨t, List.mem_cons_of_mem _ (List.mem_append_left _ ht), hliteral⟩
  | quantified body operator ih =>
    rw [regex, letters_quantify] at h
    obtain ⟨t, ht, hliteral⟩ := ih h
    exact ⟨t, List.mem_append_left _ ht, hliteral⟩
  | concat left operator right ihl ihr =>
    rcases List.mem_append.mp h with h | h
    · obtain ⟨t, ht, hliteral⟩ := ihl h
      exact ⟨t, List.mem_append_left _ ht, hliteral⟩
    · obtain ⟨t, ht, hliteral⟩ := ihr h
      exact ⟨t, List.mem_append_right _ ht, hliteral⟩
  | union left operator right ihl ihr =>
    rcases List.mem_append.mp h with h | h
    · obtain ⟨t, ht, hliteral⟩ := ihl h
      exact ⟨t, List.mem_append_left _ ht, hliteral⟩
    · obtain ⟨t, ht, hliteral⟩ := ihr h
      exact ⟨t, List.mem_append_right _ (List.mem_cons_of_mem _ ht), hliteral⟩

/-- The symbols in the meaning of a pattern are single characters. -/
theorem Means.spellable {pattern : String} {r : Regex} (h : Means pattern r) : r.Spellable := by
  cases h with
  | empty => exact fun s hs => absurd hs List.not_mem_nil
  | spelled hts hspells =>
    obtain ⟨tree, _, rfl, rfl⟩ := hspells
    intro s hs
    obtain ⟨t, ht, hliteral, hvalue⟩ := Tree.exists_literal hs
    obtain ⟨c, hc⟩ := (Token.written_of_lexFrom hts t ht).value_eq hliteral
    exact ⟨c, Option.some.inj (hvalue.symm.trans hc)⟩

/-! ## No dead state -/

namespace Automaton

variable {A : Automaton} {r : Regex}

/-- An indexed automaton decides each text; it accepts where an accepting state is reached. -/
theorem Realizes.accepts_true_iff (h : A.Realizes r) (text : List Char) :
    A.accepts text = .ok true ↔
      ∃ j, Path A.transitions A.start.id (Regex.symbols text) j ∧ A.Accepting j := by
  obtain ⟨verdict, hverdict, haccepts⟩ := h.indexed.accepts_spec h.start_hasId text
  rw [hverdict, Except.ok.injEq, haccepts]

/-- A path of an automaton spells a text. -/
theorem Realizes.exists_symbols_eq (h : A.Realizes r) (hr : r.Spellable) {i j : Int}
    {w : List String} (hp : Path A.transitions i w j) : ∃ text, Regex.symbols text = w := by
  refine Regex.exists_symbols_eq fun s hs => ?_
  obtain ⟨t, ht, hsymbol⟩ := hp.symbol_mem hs
  exact hr s (h.symbol_mem t ht s hsymbol)

/-- **Viable prefixes**: a text leaves a state active iff it can be continued to an accepted
text. -/
theorem Realizes.viable_iff (h : A.Realizes r) (hr : r.Spellable) (w : List Char) :
    ∃ active, A.reached w = .ok active ∧
      (active.isEmpty = false ↔ ∃ v, A.accepts (w ++ v) = .ok true) := by
  obtain ⟨active, hactive, _, hids⟩ := h.indexed.reached_spec h.start_hasId w
  have hsplit : ∀ v, Regex.symbols (w ++ v) = Regex.symbols w ++ Regex.symbols v := fun v =>
    List.map_append
  refine ⟨active, hactive, ActiveSet.isEmpty_eq_false_iff.trans ⟨?_, ?_⟩⟩
  · rintro ⟨i, hi⟩
    have hpath := (hids i).mp hi
    -- no state is dead, so one that is active leads on to acceptance
    obtain ⟨u, j, hlive, haccepting⟩ := h.live i (h.indexed.hasId_of_path hpath h.start_hasId)
    obtain ⟨v, rfl⟩ := h.exists_symbols_eq hr hlive
    refine ⟨v, (h.accepts_true_iff _).mpr ⟨j, ?_, haccepting⟩⟩
    rw [hsplit]
    exact hpath.append hlive
  · rintro ⟨v, hv⟩
    obtain ⟨j, hpath, _⟩ := (h.accepts_true_iff _).mp hv
    rw [hsplit] at hpath
    obtain ⟨i, hi, _⟩ := hpath.split
    exact ⟨i, (hids i).mpr hi⟩

/-- A text that is not accepted is refused. -/
theorem Realizes.accepts_false_iff (h : A.Realizes r) (text : List Char) :
    A.accepts text = .ok false ↔ ¬ A.accepts text = .ok true := by
  obtain ⟨verdict, hverdict, _⟩ := h.indexed.accepts_spec h.start_hasId text
  rw [hverdict]
  cases verdict <;> simp

end Automaton

/-! ## Main result -/

/-- **The active set becomes empty exactly when the run can no longer succeed.** For the automaton
of a pattern, a text reaches a set that is not empty iff some continuation of it is accepted; and
after any commands a playback is stuck iff no continuation of the text consumed is accepted. -/
theorem compiled_stuck_iff {pattern : String} {limit : Int} {A : Automaton}
    (h : compile pattern limit = .ok A) :
    (∀ w, ∃ active, A.reached w = .ok active ∧
      (active.isEmpty = false ↔ ∃ v, A.accepts (w ++ v) = .ok true)) ∧
    ∀ text commands, ∃ p, Playback.start A text = .ok p ∧
      ∃ stuck, (p.after commands).isStuck = .ok stuck ∧ (stuck = true ↔
        ∀ v, A.accepts ((p.after commands).text.take (p.after commands).index ++ v) =
          .ok false) := by
  obtain ⟨r, hmeans, hrealizes⟩ := exists_realizes_of_compile h
  have hviable := hrealizes.viable_iff hmeans.spellable
  refine ⟨hviable, fun text commands => ?_⟩
  obtain ⟨first, hfirst, _⟩ := hviable []
  rw [Automaton.reached_nil] at hfirst
  have hstart : Playback.start A text = .ok ⟨A, text, #[first], 0⟩ :=
    bind_eq_ok.mpr ⟨first, hfirst, rfl⟩
  obtain ⟨hcoherent, hautomaton⟩ := (Playback.coherent_start hstart).after commands
  refine ⟨_, hstart, ?_⟩
  set p := Playback.after ⟨A, text, #[first], 0⟩ commands
  obtain ⟨active, hactive, hiff⟩ := hviable (p.text.take p.index)
  have hcurrent : p.current = .ok active := by
    rw [hcoherent.current_eq, hautomaton, hactive]
  refine ⟨active.isEmpty, map_eq_ok.mpr ⟨active, hcurrent, rfl⟩, ?_⟩
  rw [← Bool.not_eq_false, hiff, not_exists]
  exact forall_congr' fun v => (hrealizes.accepts_false_iff _).symm

/-- A text that begins with `ac` is no text of `ab*`, whatever follows. -/
theorem compiled_stuck_after_wrong_symbol :
    ∃ A p, compile "ab*" 100 = .ok A ∧ Playback.start A ['a', 'c', 'b'] = .ok p ∧
      (p.after [.forward, .forward]).isStuck = .ok true ∧
      ∀ v, A.accepts ((p.after [.forward, .forward]).text.take
        (p.after [.forward, .forward]).index ++ v) = .ok false := by
  have hrun : (compile "ab*" 100 >>= fun A => Playback.start A ['a', 'c', 'b'] >>= fun p =>
      (p.after [.forward, .forward]).isStuck).toOption = some true := by decide +kernel
  cases hA : compile "ab*" 100 with
  | error fault =>
    rw [hA] at hrun
    cases hrun
  | ok A =>
    obtain ⟨p, hp, stuck, hstuck, hiff⟩ :=
      (compiled_stuck_iff hA).2 ['a', 'c', 'b'] [.forward, .forward]
    obtain rfl : stuck = true := by
      rw [hA, bind_eq_ok.mpr ⟨A, rfl, bind_eq_ok.mpr ⟨p, hp, hstuck⟩⟩] at hrun
      exact Option.some.inj hrun
    exact ⟨A, p, rfl, hp, hstuck, hiff.mp rfl⟩

end RegexStepper

import RegexStepper.Proofs.Faultless
import RegexStepper.Proofs.ViablePrefix

/-!
# What the table of a history tells

An entry of a history is kept when the playback steps back, and shown again when it steps forward;
its row in the table nevertheless tells what a fresh run on the same characters would
(`HistoryRow.Tells`): which states they lead to, whether they are accepted, and whether any text
that begins with them is.

Headline: **`history_table_tells`**: so do all rows of the table of a playback on a compiled
automaton, after any commands, and there is one for each entry.
-/

namespace RegexStepper

namespace HistoryRow

variable {r : HistoryRow}

/-- A text that begins as the name of a state does is not the sign of the empty set. -/
theorem stateName_append_ne (i : Int) (rest : String) : stateName i ++ rest ≠ emptySign := by
  intro h
  have hname : stateName i = "q" ++ toString i := rfl
  have hlist := congrArg String.toList h
  simp [hname, emptySign] at hlist

/-- The sign of the empty set stands for no other set. -/
theorem activeText_eq_emptySign_iff : r.activeText = emptySign ↔ r.active = [] := by
  unfold activeText
  rcases hactive : r.active with _ | ⟨i, rest⟩
  · exact iff_of_true rfl rfl
  · refine iff_of_false ?_ (List.cons_ne_nil i rest)
    rw [if_neg (by simp), List.map_cons]
    cases hnames : rest.map stateName with
    | nil =>
      rw [String.intercalate_singleton, ← String.append_empty (s := stateName i)]
      exact stateName_append_ne i ""
    | cons name names =>
      rw [String.intercalate_cons_cons, String.append_assoc]
      exact stateName_append_ne i _

/-- The row `r` of the entry behind `i` characters tells what the automaton does with them: the
states that they lead to, in ascending order, the last one of the characters, whether they are
accepted and whether a text that begins with them can be. -/
structure Tells (A : Automaton) (p : Playback) (i : Nat) (r : HistoryRow) : Prop where
  step_eq : r.step = i
  active_eq : ActiveSet.ids <$> p.entry i = .ok r.active
  ascending : r.active.Pairwise (· < ·)
  listed : r.active ≠ [] → r.activeText = ", ".intercalate (r.active.map stateName)
  consumed_first : i = 0 → r.consumed = epsilonSign
  consumed_eq : i ≠ 0 → ∃ c, p.text[i - 1]? = some c ∧ r.consumed = c.toString
  accepts_eq : A.accepts (p.text.take i) = .ok r.accepting
  empty_iff : r.activeText = emptySign ↔ ∀ v, A.accepts (p.text.take i ++ v) = .ok false

end HistoryRow

namespace Playback

variable {p : Playback} {A : Automaton}

/-- What stands in the row of an entry. -/
theorem historyRow_eq_ok {active : ActiveSet} {step : Nat} {row : HistoryRow}
    (h : p.historyRow active step = .ok row) :
    ∃ consumed, p.consumedAt step = .ok consumed ∧
      row = ⟨step, consumed, active.ids, active.hasAccepting⟩ := by
  obtain ⟨consumed, hconsumed, hrow⟩ := bind_eq_ok.mp h
  exact ⟨consumed, hconsumed, (Except.ok.inj hrow).symm⟩

/-- The rows are those of the entries, one after the other. -/
theorem historyRows_eq_ok {rows : List HistoryRow} (h : p.historyRows = .ok rows) :
    rows.length = p.history.size ∧ ∀ (i : Nat) row, rows[i]? = some row →
      ∃ hi : i < p.history.size, p.historyRow p.history[i] i = .ok row := by
  obtain ⟨hlength, hget⟩ := getElem?_of_mapM h
  rw [List.length_zipIdx, @Array.length_toList _ p.history] at hlength
  refine ⟨hlength, fun i row hrow => ?_⟩
  obtain ⟨entry, hentry, heq⟩ := hget i row hrow
  have hi : i < p.history.size := by
    obtain ⟨hlt, _⟩ := List.getElem?_eq_some_iff.mp hrow
    rwa [hlength] at hlt
  rw [List.getElem?_zipIdx, Array.getElem?_toList, Array.getElem?_eq_getElem hi,
    Nat.zero_add] at hentry
  obtain rfl := Option.some.inj hentry
  exact ⟨hi, heq⟩

/-- **The row of an entry tells what its automaton does** with the characters before it. -/
theorem Coherent.tells {r : Regex} (h : p.Coherent) (hA : p.automaton.Realizes r)
    (hr : r.Spellable) {i : Nat} (hi : i < p.history.size) {row : HistoryRow}
    (hrow : p.historyRow p.history[i] i = .ok row) : row.Tells p.automaton p i := by
  obtain ⟨consumed, hconsumed, rfl⟩ := historyRow_eq_ok hrow
  have hreached := h.reached_eq i hi
  obtain ⟨active, hactive, hviable⟩ := hA.viable_iff hr (p.text.take i)
  obtain rfl : p.history[i] = active := Except.ok.inj (hreached.symm.trans hactive)
  refine ⟨rfl, ?_, ActiveSet.ids_ascending _, fun hne => ?_, ?_, fun hi => ?_, ?_, ?_⟩
  · rw [entry_natCast hi]
    rfl
  · exact if_neg fun hempty => hne (List.isEmpty_iff.mp hempty)
  · rintro rfl
    exact (Except.ok.inj hconsumed).symm
  · obtain ⟨j, rfl⟩ := Nat.exists_eq_succ_of_ne_zero hi
    cases hc : p.text[j]? with
    | none =>
      rw [consumedAt, hc] at hconsumed
      cases hconsumed
    | some c =>
      rw [consumedAt, hc] at hconsumed
      exact ⟨c, hc, (Except.ok.inj hconsumed).symm⟩
  · rw [Automaton.accepts_eq, hreached]
    rfl
  · rw [HistoryRow.activeText_eq_emptySign_iff, ← ActiveSet.isEmpty_iff, ← Bool.not_eq_false,
      hviable, not_exists]
    exact forall_congr' fun v => (hA.accepts_false_iff _).symm

/-- **The history table tells prefix acceptance.** A playback of any text on the automaton of a
pattern starts, and after any commands its table has one row for each entry of the history. The row
of entry `i` tells the states active there, in ascending order, and the character before it; whether
the first `i` characters of the text are accepted; and, by the sign of the empty set, that no text
that begins with them is. -/
theorem history_table_tells {pattern : String} {limit : Int} (h : compile pattern limit = .ok A)
    (text : List Char) :
    ∃ p, start A text = .ok p ∧ ∀ commands, ∃ rows : List HistoryRow,
      Table.ofHistory (p.after commands) =
        .ok ⟨["Step", "Consumed", "Active States", "Accepting"], rows.map HistoryRow.cells⟩ ∧
      rows.length = (p.after commands).history.size ∧
      ∀ (i : Nat) row, rows[i]? = some row → row.Tells A (p.after commands) i := by
  obtain ⟨r, hmeans, hrealizes⟩ := exists_realizes_of_compile h
  obtain ⟨p, hp, hcoherent, hautomaton, _⟩ := exists_start hrealizes.faultless text
  refine ⟨p, hp, fun commands => ?_⟩
  obtain ⟨hafter, hsame⟩ := hcoherent.after commands
  rw [hautomaton] at hsame
  obtain ⟨rows, hrows⟩ := hafter.exists_historyRows
  obtain ⟨hlength, hget⟩ := historyRows_eq_ok hrows
  refine ⟨rows, ?_, hlength, fun i row hrow => ?_⟩
  · unfold Table.ofHistory
    rw [hrows]
    rfl
  · obtain ⟨hi, hentry⟩ := hget i row hrow
    exact hsame ▸ hafter.tells (hsame ▸ hrealizes) hmeans.spellable hi hentry

/-- A text replaced by another one, which is played to its end and taken back to its first
character. -/
def replaced : List Command :=
  [.forward, .setText ['a', 'b', 'c', 'b'], .runToEnd, .back, .back, .back]

/-- The entries that are not shown any more have their rows too: after `abc` nothing helps. -/
theorem history_table_tells_stepped_back :
    ∃ A p, ∃ rows : List HistoryRow, compile "ab*" 100 = .ok A ∧ start A ['c'] = .ok p ∧
      Table.ofHistory (p.after replaced) =
        .ok ⟨["Step", "Consumed", "Active States", "Accepting"], rows.map HistoryRow.cells⟩ ∧
      (p.after replaced).index = 1 ∧
      rows.map HistoryRow.cells =
        [[.number 0, .text "ε", .text "q0", .flag false],
         [.number 1, .text "a", .text "q1, q2, q4, q5", .flag true],
         [.number 2, .text "b", .text "q2, q3, q5", .flag true],
         [.number 3, .text "c", .text "∅", .flag false],
         [.number 4, .text "b", .text "∅", .flag false]] ∧
      ∀ v, A.accepts (['a', 'b', 'c'] ++ v) = .ok false := by
  obtain ⟨A, hA, hplayed⟩ := bind_eq_ok.mp (eq_ok_of_toOption (by decide +kernel :
    (compile "ab*" 100 >>= fun A => start A ['c'] >>= fun p =>
      ((p.after replaced).text, (p.after replaced).index, ·) <$>
        Table.ofHistory (p.after replaced)).toOption =
      some (['a', 'b', 'c', 'b'], 1, ⟨["Step", "Consumed", "Active States", "Accepting"],
        [[.number 0, .text "ε", .text "q0", .flag false],
         [.number 1, .text "a", .text "q1, q2, q4, q5", .flag true],
         [.number 2, .text "b", .text "q2, q3, q5", .flag true],
         [.number 3, .text "c", .text "∅", .flag false],
         [.number 4, .text "b", .text "∅", .flag false]]⟩)))
  obtain ⟨p, hp, htable⟩ := bind_eq_ok.mp hplayed
  obtain ⟨table, htable, hfacts⟩ := map_eq_ok.mp htable
  obtain ⟨htext, hindex, rfl⟩ := by simpa only [Prod.mk.injEq] using hfacts
  obtain ⟨p', hp', htells⟩ := history_table_tells hA ['c']
  obtain rfl := Except.ok.inj (hp.symm.trans hp')
  obtain ⟨rows, hrows, _, hrow⟩ := htells replaced
  have hcells := (Table.mk.inj (Except.ok.inj (htable.symm.trans hrows))).2
  have hthird : ∃ row, rows[3]? = some row ∧
      row.cells = [.number 3, .text "c", .text "∅", .flag false] := by
    have hget := congrArg (·[3]?) hcells
    rw [List.getElem?_map] at hget
    exact Option.map_eq_some_iff.mp hget.symm
  obtain ⟨row, hthird, hcell⟩ := hthird
  have hempty : row.activeText = HistoryRow.emptySign := by
    simp only [HistoryRow.cells, List.cons.injEq, Cell.text.injEq] at hcell
    exact hcell.2.2.1
  have hnever := (hrow 3 row hthird).empty_iff.mp hempty
  rw [htext] at hnever
  exact ⟨A, p, rows, hA, hp, hrows, hindex, hcells.symm, hnever⟩

end Playback

end RegexStepper

import RegexStepper.Drawing
import RegexStepper.Proofs.Alphabet
import RegexStepper.Proofs.Pattern.Escapes

/-!
# The labels of a drawing

A label in quotes is read from its opening quote up to the first double quote that no backslash
escapes (`Dot.ClosesAt`). Whatever the label is, no quote within it ends it early: each stands
behind an odd run of backslashes (`Dot.Guarded`, `Dot.guarded_append_escapeQuotes`). The quote that
was written to close it does so unless the label itself ends in an odd run of backslashes
(`Dot.closesAt_iff`): such a run is written as it is, and escapes that quote.

Headlines:
* `Drawing.source_eq`: what stands before and behind each label of a drawing;
* **`Drawing.quoted_label_unclosed`**: the drawing of a pattern whose label is never closed;
* **`Drawing.quoted_labels_closed_iff`**: which labels of a drawing are closed, and that all those
  of a pattern are iff no literal of it is a backslash.
-/

namespace RegexStepper

open Pattern

/-! ## Quotes -/

namespace Dot

variable {cs before rest : List Char} {c : Char} {odd : Bool}

/-- Read from behind an opening quote, a text in quotes ends at place `n`: there stands its first
double quote that no backslash escapes. -/
structure ClosesAt (cs : List Char) (n : Nat) : Prop where
  closes : Unescaped cs '"' n
  first : ∀ i < n, ¬ Unescaped cs '"' i

/-- A text without a double quote that could end it. -/
def Guarded (cs : List Char) : Prop :=
  ∀ i, ¬ Unescaped cs '"' i

instance : DecidablePred Guarded := fun cs =>
  decidable_of_iff (∀ i < cs.length, ¬ Unescaped cs '"' i)
    ⟨fun h i hi => h i hi.lt_length hi, fun h i _ => h i⟩

theorem guarded_nil : Guarded [] := by decide

/-- A character may follow, a double quote only behind a backslash that takes it literally. -/
theorem Guarded.concat (h : Guarded cs) (hc : c = '"' → Hanging cs) : Guarded (cs ++ [c]) := by
  intro i hi
  have hle : i ≤ cs.length := by
    have := hi.lt_length
    rw [List.length_append, List.length_singleton] at this
    exact Nat.le_of_lt_succ this
  rcases Nat.lt_or_eq_of_le hle with hlt | rfl
  · exact h i ((unescaped_append_left hlt).mp hi)
  · obtain ⟨hquote, hfree⟩ := unescaped_append_iff.mp hi
    exact hfree (hc hquote.symm)

/-- **No quote within a label ends it.** `odd` has to tell whether what has been written hangs. -/
theorem guarded_append_escapeQuotes (h : Guarded before) (hodd : odd = true ↔ Hanging before) :
    Guarded (before ++ escapeQuotes odd cs) := by
  fun_induction escapeQuotes odd cs generalizing before with
  | case1 odd => rwa [List.append_nil]
  | case2 odd rest ih =>
    rw [List.append_cons]
    refine ih (h.concat fun hc => absurd hc (by decide)) ?_
    rw [hanging_concat_backslash, ← hodd, Bool.not_eq_true', Bool.not_eq_true]
  | case3 rest ih =>
    -- the label's own backslash escapes the quote
    rw [List.append_cons]
    refine ih (h.concat fun _ => hodd.mp rfl) ?_
    exact iff_of_false Bool.false_ne_true (not_hanging_concat (by decide))
  | case4 odd rest hfree ih =>
    -- one backslash more
    have hbefore : ¬ Hanging before := fun hb => hfree (hodd.mpr hb)
    rw [List.append_cons, List.append_cons]
    refine ih (.concat (h.concat fun hc => absurd hc (by decide)) fun _ => ?_) ?_
    · exact hanging_concat_backslash.mpr hbefore
    · exact iff_of_false Bool.false_ne_true (not_hanging_concat (by decide))
  | case5 odd c rest hb hq ih =>
    rw [List.append_cons]
    refine ih (h.concat fun hc => absurd hc hq) ?_
    exact iff_of_false Bool.false_ne_true (not_hanging_concat hb)

/-- A label hangs in quotes iff it does without them: backslashes are added before quotes only. -/
theorem hanging_append_escapeQuotes :
    Hanging (before ++ escapeQuotes odd cs) ↔ Hanging (before ++ cs) := by
  fun_induction escapeQuotes odd cs generalizing before with
  | case1 odd => rfl
  | case2 odd rest ih =>
    rw [List.append_cons, List.append_cons before _ rest]
    exact ih
  | case3 rest ih =>
    rw [hanging_append_cons (by decide), hanging_append_cons (by decide)]
    exact @ih []
  | case4 odd rest _ ih =>
    rw [List.append_cons, hanging_append_cons (by decide), hanging_append_cons (by decide)]
    exact @ih []
  | case5 odd c rest hb _ ih =>
    rw [hanging_append_cons hb, hanging_append_cons hb]
    exact @ih []

/-- **A label is closed by the quote written for it iff it does not hang.** -/
theorem closesAt_iff :
    ClosesAt (escapeQuotes false cs ++ '"' :: rest) (escapeQuotes false cs).length ↔
      ¬ Hanging cs := by
  have hhanging : Hanging (escapeQuotes false cs) ↔ Hanging cs :=
    @hanging_append_escapeQuotes cs [] false
  have hguarded : Guarded (escapeQuotes false cs) :=
    guarded_append_escapeQuotes guarded_nil (iff_of_false Bool.false_ne_true not_hanging_nil)
  rw [← hhanging]
  constructor
  · exact fun h => (unescaped_append_iff.mp h.closes).2
  · intro hfree
    refine ⟨unescaped_append_iff.mpr ⟨rfl, hfree⟩, fun i hi hclosing => ?_⟩
    exact hguarded i ((unescaped_append_left hi).mp hclosing)

/-! ## Lines and properties -/

/-- Statements as they are written, one a line. -/
def lines (statements : List Statement) : String :=
  String.join (statements.map fun s => "\t" ++ s.render ++ "\n")

theorem render_eq (statements : List Statement) :
    render statements = "digraph \x7b\n" ++ lines statements ++ "\x7d\n" := rfl

theorem lines_append (ss us : List Statement) : lines (ss ++ us) = lines ss ++ lines us := by
  rw [lines, List.map_append, String.join_append]
  rfl

theorem lines_cons (s : Statement) (ss : List Statement) :
    lines (s :: ss) = "\t" ++ s.render ++ "\n" ++ lines ss :=
  String.join_cons

/-- Properties as they are written behind another one. -/
def further (properties : List Attribute) : String :=
  String.join (properties.map fun a => " " ++ a.render)

theorem further_cons (a : Attribute) (properties : List Attribute) :
    further (a :: properties) = " " ++ a.render ++ further properties :=
  String.join_cons

theorem intercalate_render (a : Attribute) (properties : List Attribute) :
    " ".intercalate ((a :: properties).map Attribute.render) = a.render ++ further properties := by
  induction properties generalizing a with
  | nil => exact String.intercalate_singleton.trans (String.append_empty).symm
  | cons b properties ih =>
    rw [List.map_cons, List.map_cons, String.intercalate_cons_cons, ← List.map_cons, ih,
      further_cons]
    simp only [String.append_assoc]

theorem renderProperties_cons (a : Attribute) (properties : List Attribute) :
    renderProperties (a :: properties) = " [" ++ a.render ++ further properties ++ "]" := by
  rw [renderProperties, if_neg (by exact Bool.false_ne_true), intercalate_render]
  simp only [String.append_assoc]

end Dot

/-! ## Labels in place -/

namespace Drawing

open Dot (Attribute)

variable {A : Automaton} {h : Highlight} {ts us : List Transition} {t : Transition}

/-- The properties of an edge behind its label. -/
def look (h : Highlight) (t : Transition) : List Attribute :=
  (colour? h t).toList.map (fun colour => ⟨"color", colour⟩) ++
    (if h.fired.contains t then [⟨"penwidth", "2"⟩] else []) ++
    if t.isEpsilon then [⟨"style", "dashed"⟩] else []

theorem edge_eq : edge h t =
    .edge (toString t.source) (toString t.target) (⟨"label", t.label⟩ :: look h t) := rfl

/-- A drawing up to the label of the transition `t` behind the transitions `ts`. -/
def beforeLabel (A : Automaton) (h : Highlight) (ts : List Transition) (t : Transition) : String :=
  "digraph \x7b\n" ++
    Dot.lines (settings ++ entry A ++ A.states.toList.map (node h) ++ ts.map (edge h)) ++
    "\t" ++ Dot.value (toString t.source) ++ " -> " ++ Dot.value (toString t.target) ++ " [label="

/-- A drawing behind the label of the transition `t` before the transitions `us`. -/
def afterLabel (h : Highlight) (t : Transition) (us : List Transition) : String :=
  Dot.further (look h t) ++ "]\n" ++ Dot.lines (us.map (edge h)) ++ "\x7d\n"

/-- **Where a label stands** in a drawing. -/
theorem source_eq (ht : A.transitions = ts ++ t :: us) :
    source A h = beforeLabel A h ts t ++ Dot.value t.label ++ afterLabel h t us := by
  have hedge : (edge h t).render = Dot.value (toString t.source) ++ " -> " ++
      Dot.value (toString t.target) ++
      (" [" ++ ("label=" ++ Dot.value t.label) ++ Dot.further (look h t) ++ "]") := by
    rw [edge_eq, Dot.Statement.render, Dot.renderProperties_cons]
    rfl
  have hopen : ∀ text, " [" ++ ("label=" ++ text) = " [label=" ++ text :=
    fun _ => (String.append_assoc).symm
  have hclose : ∀ text, "]" ++ ("\n" ++ text) = "]\n" ++ text :=
    fun _ => (String.append_assoc).symm
  rw [source, Dot.render_eq, statements, ht, List.map_append, List.map_cons, ← List.append_assoc,
    Dot.lines_append, Dot.lines_cons, hedge]
  delta beforeLabel afterLabel
  simp only [String.append_assoc, hopen, hclose]

/-- The label of `t`, between `ts` and `us`, stands in quotes and is read up to the quote that was
written to close it. -/
def LabelClosed (A : Automaton) (h : Highlight) (ts : List Transition) (t : Transition)
    (us : List Transition) : Prop :=
  ∃ content, (source A h).toList = (beforeLabel A h ts t).toList ++
      '"' :: (content ++ '"' :: (afterLabel h t us).toList) ∧
    Dot.ClosesAt (content ++ '"' :: (afterLabel h t us).toList) content.length

/-- Every label in quotes is closed. -/
def LabelsClosed (A : Automaton) (h : Highlight) : Prop :=
  ∀ ts t us, A.transitions = ts ++ t :: us → Dot.isPlain t.label.toList = false →
    LabelClosed A h ts t us

/-- The characters of a drawing around a label in quotes. -/
theorem toList_source (ht : A.transitions = ts ++ t :: us)
    (hquoted : Dot.isPlain t.label.toList = false) :
    (source A h).toList = (beforeLabel A h ts t).toList ++ '"' ::
      (Dot.escapeQuotes false t.label.toList ++ '"' :: (afterLabel h t us).toList) := by
  rw [source_eq ht, Dot.value, hquoted, if_neg Bool.false_ne_true, String.toList_append,
    String.toList_append, String.toList_ofList, Dot.quoted]
  simp only [List.append_assoc, List.cons_append, List.nil_append]

/-- **A label in quotes is closed iff it does not hang.** -/
theorem labelClosed_iff (ht : A.transitions = ts ++ t :: us)
    (hquoted : Dot.isPlain t.label.toList = false) :
    LabelClosed A h ts t us ↔ ¬ Hanging t.label.toList := by
  have hsource := @toList_source A h ts us t ht hquoted
  rw [← @Dot.closesAt_iff _ (afterLabel h t us).toList]
  constructor
  · rintro ⟨content, hcontent, hclosed⟩
    obtain rfl : content = Dot.escapeQuotes false t.label.toList := by
      have hsame := List.cons.inj (List.append_cancel_left (hcontent.symm.trans hsource))
      exact List.append_cancel_right hsame.2
    exact hclosed
  · exact fun hclosed => ⟨_, hsource, hclosed⟩

/-! ## The labels of a pattern -/

/-- A backslash is the one character that hangs. -/
theorem hanging_toString_iff {c : Char} : Hanging c.toString.toList ↔ c = '\\' := by
  rw [Char.toString_eq_singleton, String.toList_singleton]
  by_cases hc : c = '\\'
  · rw [hc]
    decide
  · exact iff_of_false (@not_hanging_concat [] c hc) hc

/-- A label of single characters hangs iff it is a backslash. -/
theorem hanging_label_iff (ht : ∀ s, t.symbol = some s → ∃ c : Char, s = c.toString) :
    Hanging t.label.toList ↔ t.symbol = some "\\" := by
  unfold Transition.label
  cases hsymbol : t.symbol with
  | none => exact iff_of_false (by decide) (by decide)
  | some s =>
    obtain ⟨c, rfl⟩ := ht s hsymbol
    have hsame : (some c.toString = some "\\") ↔ c = '\\' :=
      (Option.some_inj).trans (@String.singleton_inj c '\\')
    exact hanging_toString_iff.trans hsame.symm

/-- **All labels are closed iff no letter is a backslash**, if letters are single characters. -/
theorem labelsClosed_iff {r : Regex} (hA : A.Realizes r) (hr : r.Spellable) :
    LabelsClosed A h ↔ "\\" ∉ r.letters := by
  have hhanging : ∀ t ∈ A.transitions, (Hanging t.label.toList ↔ t.symbol = some "\\") :=
    fun t ht => hanging_label_iff fun s hs => hr s (hA.symbol_mem t ht s hs)
  rw [← hA.mem_alphabet_iff, A.mem_alphabet]
  constructor
  · rintro hclosed ⟨t, ht, hsymbol⟩
    obtain ⟨ts, us, hsplit⟩ := List.append_of_mem ht
    have hquoted : Dot.isPlain t.label.toList = false := by
      rw [Transition.label, hsymbol]
      decide
    refine (labelClosed_iff hsplit hquoted).mp (hclosed ts t us hsplit hquoted) ?_
    exact (hhanging t ht).mpr hsymbol
  · intro hnone ts t us hsplit hquoted
    have ht : t ∈ A.transitions := hsplit ▸ List.mem_append_right _ List.mem_cons_self
    refine (labelClosed_iff hsplit hquoted).mpr fun hhangs => hnone ⟨t, ht, ?_⟩
    exact (hhanging t ht).mp hhangs

/-! ## Main results -/

/-- **A label that is never closed**: the drawing of an escaped backslash has no double quote behind
the opening one of its label that could close it. -/
theorem quoted_label_unclosed :
    ∃ A rest, compile "\\\\" 100 = .ok A ∧ A.transitions = [⟨0, 1, some "\\"⟩] ∧
      source A .none = beforeLabel A .none [] ⟨0, 1, some "\\"⟩ ++ "\"" ++ rest ∧
      Dot.Guarded rest.toList ∧ ¬ LabelsClosed A .none := by
  obtain ⟨A, hA, ht⟩ := map_eq_ok.mp (eq_ok_of_toOption (by decide +kernel :
    (Automaton.transitions <$> compile "\\\\" 100).toOption = some [⟨0, 1, some "\\"⟩]))
  have hsplit : A.transitions = [] ++ ⟨0, 1, some "\\"⟩ :: [] := ht
  have hquoted : Dot.isPlain ['\\'] = false := by decide
  refine ⟨A, "\\\"]\n\x7d\n", hA, ht, ?_, by decide, fun hclosed => ?_⟩
  · rw [source_eq hsplit, String.append_assoc, String.append_assoc]
    rfl
  · exact (labelClosed_iff hsplit hquoted).mp (hclosed _ _ _ hsplit hquoted) (by decide)

/-- **Which labels are closed.** In the drawing of any automaton, whatever is brought out, a label
in quotes is closed by the quote written for it iff the label does not end in an odd run of
backslashes. The labels of the automaton of a pattern are all closed iff no literal of the pattern
is a backslash. -/
theorem quoted_labels_closed_iff (A : Automaton) (h : Highlight) :
    (∀ ts t us, A.transitions = ts ++ t :: us → Dot.isPlain t.label.toList = false →
      (LabelClosed A h ts t us ↔ ¬ Hanging t.label.toList)) ∧
    ∀ pattern limit tokens, compile pattern limit = .ok A →
      Token.ofPattern pattern = .ok tokens →
      (LabelsClosed A h ↔ ∀ t ∈ tokens, t.kind = .literal → t.value ≠ some "\\") := by
  refine ⟨fun ts t us => labelClosed_iff, fun pattern limit tokens hcompile htokens => ?_⟩
  obtain ⟨r, hmeans, hrealizes⟩ := exists_realizes_of_compile hcompile
  rw [labelsClosed_iff hrealizes hmeans.spellable, hmeans.mem_letters_iff htokens]
  push Not
  rfl

/-- A double quote alone: its label is closed, also where the transition has just fired. -/
theorem quoted_labels_closed_iff_quote :
    ∃ A h, compile "\"" 100 = .ok A ∧ A.transitions = [⟨0, 1, some "\""⟩] ∧
      h.fired = [⟨0, 1, some "\""⟩] ∧ LabelClosed A h [] ⟨0, 1, some "\""⟩ [] ∧
      LabelsClosed A h := by
  obtain ⟨A, hA, ht⟩ := map_eq_ok.mp (eq_ok_of_toOption (by decide +kernel :
    (Automaton.transitions <$> compile "\"" 100).toOption = some [⟨0, 1, some "\""⟩]))
  obtain ⟨hlabel, hpattern⟩ := quoted_labels_closed_iff A ⟨[1], [⟨0, 1, some "\""⟩], true⟩
  refine ⟨A, _, hA, ht, rfl, (hlabel [] _ [] ht (by decide)).mpr (by decide), ?_⟩
  exact (hpattern _ _ _ hA rfl).mpr (by decide)

end Drawing

end RegexStepper

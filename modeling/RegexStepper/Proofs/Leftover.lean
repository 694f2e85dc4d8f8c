import RegexStepper.Proofs.Diagnosis
import RegexStepper.Proofs.Enclosure
import RegexStepper.Proofs.ReversePolish.Order

/-!
# What is left on the stack

A token list in reverse Polish order may leave any number of expressions. One that comes from a
pattern leaves one at most: it starts at a balance of one and each defect lowers it
(`Recovery.balance_join`), so that two expressions are never left side by side
(`ReversePolish.length_le_one`).

No expression is left where there was none at all, since a stack with something on it never runs
empty (`ReversePolish.eq_nil_of_evaluate?`). Such a pattern has parentheses alone, and no group
next to another, as a concatenation would be implied between them: it is an empty group in any
number of groups (`ReversePolish.ofPattern_eq_nil_iff`).

Headline: **`leftover_iff_empty_groups`**.
-/

namespace RegexStepper

/-! ## Evaluation -/

namespace ReversePolish

variable {t : Token} {ts output : List Token} {stack stack' : List Regex}

/-- A token that finds its operands leaves something. -/
theorem ne_nil_of_push? (h : push? t stack = some stack') : stack' ≠ [] := by
  rintro rfl
  unfold push? at h
  split at h <;> cases h

/-- **Only no token at all leaves nothing.** -/
theorem eq_nil_of_evaluate? (h : evaluate? stack ts = some []) : stack = [] ∧ ts = [] := by
  induction ts generalizing stack with
  | nil => exact ⟨Option.some.inj h, rfl⟩
  | cons t rest ih =>
    obtain ⟨next, hpush, hrest⟩ := Option.bind_eq_some_iff.mp h
    exact absurd (ih hrest).1 (ne_nil_of_push? hpush)

/-- **What is read from a pattern leaves one expression at most.** -/
theorem length_le_one (hwritten : ∀ t ∈ ts, t.Written) (h : ofTokens (Token.join ts) = .ok output)
    (hstack : evaluate? [] output = some stack) : stack.length ≤ 1 := by
  have hlength := length_of_evaluate? hstack
  rw [(arranged_of_ofTokens h).balance_eq, Recovery.balance_join hwritten] at hlength
  simp only [List.length_nil, balance] at hlength
  omega

end ReversePolish

/-- A known token is not to blame for what is left. -/
theorem Token.Known.not_leftover {t : Token} (h : t.Known) {found : Nat} {position : Option Int} :
    ¬ t.Blamed (.pattern ⟨.notOneFragment found, position⟩) := by
  rintro ⟨⟩
  rename_i hfault
  obtain ⟨text, htext⟩ := h.exists_text
  cases htext.symm.trans hfault

/-- **The tokens of a pattern leave no expression or one**, and none if there are no tokens. -/
theorem Drafting.leftover_iff {pattern : String} {output : List Token}
    (h : ReversePolish.ofPattern pattern = .ok output) {found : Nat} {position : Option Int} :
    (assemble output).result = .error (.pattern ⟨.notOneFragment found, position⟩) ↔
      output = [] ∧ found = 0 ∧ position = none := by
  have hempty : (assemble []).result = refuse (.notOneFragment 0) none :=
    assemble_leftover (show ReversePolish.evaluate? [] [] = some [] from rfl) Nat.zero_ne_one
  constructor
  · intro hfault
    cases hstack : ReversePolish.evaluate? [] output with
    | none =>
      obtain ⟨fault, hfault', t, ht, hblamed⟩ := assemble_blamed hstack
      obtain rfl := Except.error.inj (hfault'.symm.trans hfault)
      exact absurd hblamed (ReversePolish.known_of_ofPattern h t ht).not_leftover
    | some stack =>
      obtain ⟨joined, hjoined, hreordered⟩ := bind_eq_ok.mp h
      obtain ⟨ts, hts, rfl⟩ := map_eq_ok.mp hjoined
      have hle := ReversePolish.length_le_one (Token.written_of_lexFrom hts) hreordered hstack
      match stack, hle with
      | [], _ =>
        obtain ⟨_, rfl⟩ := ReversePolish.eq_nil_of_evaluate? hstack
        cases hempty.symm.trans hfault
        exact ⟨rfl, rfl, rfl⟩
      | [r], _ =>
        obtain ⟨A, hA, _⟩ := assemble_spec (ReversePolish.regex?_eq_some_iff.mpr hstack)
        cases hA.symm.trans hfault
  · rintro ⟨rfl, rfl, rfl⟩
    exact hempty

/-! ## Patterns of parentheses -/

namespace Token

variable {left : Token} {ts : List Token}

/-- After the end of a group no other begins without a concatenation. -/
theorem closing_of_joinAfter (hleft : left.kind = .closing)
    (h : ∀ t ∈ joinAfter left ts, t.kind.isParenthesis = true) : ∀ t ∈ ts, t.kind = .closing := by
  induction ts generalizing left with
  | nil => exact fun t ht => absurd ht List.not_mem_nil
  | cons right rest ih =>
    rw [joinAfter_cons] at h
    have hright : right.kind = .closing := by
      have hmem := h right (List.mem_append_right _ List.mem_cons_self)
      refine (Kind.isParenthesis_iff.mp hmem).resolve_left fun hopening => ?_
      have hlink : link left right = [concatBefore right] :=
        link_of_ends_of_begins (by rw [hleft]; rfl) (by rw [hopening]; rfl)
      have hconcat := h (concatBefore right) (by simp [hlink])
      cases hconcat
    intro t ht
    rcases List.mem_cons.mp ht with rfl | ht
    · exact hright
    · exact ih hright (fun u hu => h u (List.mem_append_right _ (List.mem_cons_of_mem _ hu))) t ht

/-- **Parentheses between which no concatenation is implied** come in two rows. -/
theorem exists_rows (h : ∀ t ∈ join ts, t.kind.isParenthesis = true) :
    ∃ m n, ts.map (·.kind) = List.replicate m .opening ++ List.replicate n .closing := by
  induction ts with
  | nil => exact ⟨0, 0, rfl⟩
  | cons first rest ih =>
    rw [join_cons] at h
    have hrest := fun t ht => h t (List.mem_cons_of_mem first ht)
    rcases Kind.isParenthesis_iff.mp (h first List.mem_cons_self) with hopening | hclosing
    · have hends : first.kind.endsExpression = false := by rw [hopening]; rfl
      rw [joinAfter_eq_join hends] at hrest
      obtain ⟨m, n, hkinds⟩ := ih hrest
      exact ⟨m + 1, n, by rw [List.map_cons, hkinds, hopening]; rfl⟩
    · have hall := closing_of_joinAfter hclosing hrest
      refine ⟨0, rest.length + 1, ?_⟩
      rw [List.map_cons, hclosing, List.map_congr_left hall, List.map_const']
      rfl

/-- Only a parenthesis that no backslash takes literally is read as one. -/
theorem map_ofOperator? {position : Nat} {cs : List Char} (h : lexFrom position cs = .ok ts)
    (hts : ∀ t ∈ ts, t.kind.isParenthesis = true) :
    cs.map Kind.ofOperator? = (ts.map (·.kind)).map some := by
  induction cs using reading_induction generalizing position ts with
  | nil =>
    cases h
    rfl
  | lone => cases h
  | escaped c rest _ =>
    obtain ⟨us, _, rfl⟩ := map_eq_ok.mp h
    have hparenthesis := hts _ List.mem_cons_self
    rw [Kind.isParenthesis_of_isOperand (isOperand_ofEscaped c position)] at hparenthesis
    cases hparenthesis
  | plain c rest hc ih =>
    rw [lexFrom_plain hc] at h
    obtain ⟨us, hus, rfl⟩ := map_eq_ok.mp h
    have hne : (ofPlain c position).kind ≠ .literal := by
      intro hliteral
      have hparenthesis := hts _ List.mem_cons_self
      rw [hliteral] at hparenthesis
      cases hparenthesis
    rw [List.map_cons, List.map_cons, List.map_cons, (kind_ofPlain_eq_iff hne).mp rfl,
      ih hus fun t ht => hts t (List.mem_cons_of_mem _ ht)]

end Token

namespace ReversePolish

/-- The characters of one operator are told from their kinds. -/
theorem eq_replicate_of_map {c : Char} {k : Kind} (hk : ∀ d, Kind.ofOperator? d = some k → d = c)
    {cs : List Char} {n : Nat} (h : cs.map Kind.ofOperator? = List.replicate n (some k)) :
    cs = List.replicate n c := by
  refine List.eq_replicate_iff.mpr ⟨?_, fun d hd => hk d ?_⟩
  · simpa using congrArg List.length h
  · have hmem := List.mem_map_of_mem (f := Kind.ofOperator?) hd
    rw [h] at hmem
    exact List.eq_of_mem_replicate hmem

/-- **Only empty groups in each other are reordered to nothing.** -/
theorem ofPattern_eq_nil_iff {pattern : String} : ofPattern pattern = .ok [] ↔
    ∃ n, pattern.toList = List.replicate n '(' ++ List.replicate n ')' := by
  constructor
  · intro h
    obtain ⟨joined, hjoined, hreordered⟩ := bind_eq_ok.mp h
    obtain ⟨ts, hts, rfl⟩ := map_eq_ok.mp hjoined
    have hparentheses : ∀ t ∈ Token.join ts, t.kind.isParenthesis = true := by
      simpa using (perm_of_ofTokens hreordered).nil_eq
    obtain ⟨m, n, hkinds⟩ := Token.exists_rows hparentheses
    have hcloses := Recovery.closes_join.mp (arranged_of_ofTokens hreordered).closes
    have hcount := hcloses.count_eq
    rw [hkinds] at hcount
    obtain rfl : m = n := by simpa [openGroups, List.count_replicate] using hcount
    have hread := Token.map_ofOperator? hts fun t ht => hparentheses t (Token.mem_join ht)
    rw [hkinds, List.map_append, List.map_replicate, List.map_replicate] at hread
    obtain ⟨before, after, hpattern, hbefore, hafter⟩ := List.map_eq_append_iff.mp hread
    refine ⟨m, ?_⟩
    rw [hpattern, eq_replicate_of_map (c := '(') (by simp [Kind.ofOperator?_eq_some_iff]) hbefore,
      eq_replicate_of_map (c := ')') (by simp [Kind.ofOperator?_eq_some_iff]) hafter]
  · rintro ⟨n, hpattern⟩
    induction n generalizing pattern with
    | zero =>
      obtain rfl : pattern = "" := String.toList_inj.mp hpattern
      rfl
    | succ n ih =>
      have hinner := @ih (String.ofList (List.replicate n '(' ++ List.replicate n ')'))
        String.toList_ofList
      have hgroup : pattern =
          "(" ++ String.ofList (List.replicate n '(' ++ List.replicate n ')') ++ ")" := by
        rw [← String.toList_inj, toList_group, hpattern, String.toList_ofList, List.append_assoc,
          ← List.replicate_succ']
        rfl
      rw [hgroup]
      exact ofPattern_group hinner

end ReversePolish

/-! ## Main result -/

/-- That there is not one expression left is reported where reordering leaves no token. -/
theorem compile_leftover_iff {pattern : String} {limit : Int} {found : Nat} {position : Option Int} :
    compile pattern limit = .error (.pattern ⟨.notOneFragment found, position⟩) ↔
      pattern.length ≤ limit ∧ pattern ≠ "" ∧ ReversePolish.ofPattern pattern = .ok [] ∧
        found = 0 ∧ position = none := by
  by_cases hlength : pattern.length ≤ limit
  · by_cases hempty : pattern = ""
    · subst hempty
      obtain ⟨A, hA, _⟩ := Drafting.assembleEmpty_spec
      rw [compile_empty hlength, hA]
      exact iff_of_false (fun h => nomatch h) fun h => h.2.1 rfl
    · rw [compile_eq hempty hlength]
      cases houtput : ReversePolish.ofPattern pattern with
      | error fault =>
        refine iff_of_false (fun hfault => ?_) fun h => nomatch h.2.2.1
        have hrules : Enforces pattern.toList limit _ (ReversePolish.ofPattern pattern) :=
          ReversePolish.enforces_ofPattern
        rw [houtput] at hrules
        obtain ⟨e, rfl, hbroken⟩ := hrules
        cases hfault
        cases hbroken.isMalformed_eq_false
      | ok output =>
        show (Drafting.assemble output).result = _ ↔ _
        rw [Drafting.leftover_iff houtput, and_iff_right hlength, and_iff_right hempty,
          Except.ok.injEq]
  · refine iff_of_false ?_ fun h => hlength h.1
    unfold compile
    rw [if_pos (Int.not_le.mp hlength)]
    exact fun h => nomatch h

/-- **Implicit concatenation leaves no operands side by side.** Of any pattern and any limit, the
compiler reports that there is not one expression left only if there is none at all, and it does so
if and only if the pattern is short enough and made of a number of opening parentheses and then as
many closing ones. -/
theorem leftover_iff_empty_groups (pattern : String) (limit : Int) (found : Nat)
    (position : Option Int) :
    compile pattern limit = .error (.pattern ⟨.notOneFragment found, position⟩) ↔
      found = 0 ∧ position = none ∧ pattern.length ≤ limit ∧
        ∃ n, 1 ≤ n ∧ pattern.toList = List.replicate n '(' ++ List.replicate n ')' := by
  rw [compile_leftover_iff, ReversePolish.ofPattern_eq_nil_iff]
  constructor
  · rintro ⟨hlength, hne, ⟨n, hpattern⟩, hfound, hposition⟩
    refine ⟨hfound, hposition, hlength, n, Nat.one_le_iff_ne_zero.mpr ?_, hpattern⟩
    rintro rfl
    exact hne (String.toList_inj.mp hpattern)
  · rintro ⟨hfound, hposition, hlength, n, hn, hpattern⟩
    refine ⟨hlength, ?_, ⟨n, hpattern⟩, hfound, hposition⟩
    rintro rfl
    obtain ⟨m, rfl⟩ := Nat.exists_eq_add_of_le' hn
    cases hpattern

example : compile "(())" 4 = .error (.pattern ⟨.notOneFragment 0, none⟩) := rfl

end RegexStepper

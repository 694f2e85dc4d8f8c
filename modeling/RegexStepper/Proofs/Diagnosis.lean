import RegexStepper.Proofs.Pattern.Groups

/-!
# Which error a pattern is refused with

A `Rule` is something that can be seen to be wrong with a pattern before its expressions are put
together; `Rule.Blames` says of a pattern alone when it is broken and how that is reported. The
compiler reports the first broken rule (`FirstBroken`) in the order `Rule.inOrder`.

Each stage looks after some of the rules. `Enforces` says so of a stage: it fails with the first of
them that is broken, and it succeeds where all are kept (`Keeps`). Stages that follow one another
enforce their rules in that order (`Enforces.bind`), so that the order of the checks is put together
from one lemma for each of them.

Headlines:
* `compile_cases`: a pattern compiles and keeps all rules, or the first broken rule is reported, or
  all are kept and the pattern is malformed;
* **`refusal_diagnosed`**: which error any refused pattern is refused with.
-/

namespace RegexStepper

open Pattern

/-! ## Rules -/

/-- What a pattern is checked for before its expressions are put together. -/
inductive Rule where
  /-- It is not too long. -/
  | length
  /-- It does not end in a backslash that takes the next character literally. -/
  | escape
  /-- It does not start with an operator. -/
  | start
  /-- Every closing parenthesis closes a group. -/
  | closing
  /-- Every group is closed. -/
  | opening
  /-- It does not end with a choice. -/
  | ending

/-- The order in which the rules are looked after. -/
def Rule.inOrder : List Rule := [length, escape, start, closing, opening, ending]

/-- The operators that no pattern starts with. -/
def startOperators : List Char := ['|', '*', '+', '?']

variable {cs : List Char} {limit : Int} {rule : Rule} {rules more : List Rule} {e e' : PatternError}

/-- The pattern of these characters breaks a rule, and so the error says. -/
inductive Rule.Blames (cs : List Char) (limit : Int) : Rule → PatternError → Prop where
  | length : limit < cs.length → Blames cs limit .length ⟨.tooLong cs.length limit, none⟩
  | escape : Hanging cs →
    Blames cs limit .escape ⟨.unterminatedEscape, some (cs.length - 1 : Nat)⟩
  | start {c : Char} : cs.head? = some c → c ∈ startOperators →
    Blames cs limit .start ⟨.invalidStart c.toString, some 0⟩
  | closing {k : Nat} : FirstUnopened cs k →
    Blames cs limit .closing ⟨.unmatchedClosing, some k⟩
  | opening {j : Nat} : LastUnclosed cs j →
    Blames cs limit .opening ⟨.unmatchedOpening, some j⟩
  | ending : Unescaped cs '|' (cs.length - 1) →
    Blames cs limit .ending ⟨.invalidEnd "|", some (cs.length - 1 : Nat)⟩

/-- The first of the rules that is broken is reported by the error. -/
inductive FirstBroken (cs : List Char) (limit : Int) : List Rule → PatternError → Prop where
  | here {rule : Rule} {rules : List Rule} {e : PatternError} :
    rule.Blames cs limit e → FirstBroken cs limit (rule :: rules) e
  | later {rule : Rule} {rules : List Rule} {e : PatternError} :
    (∀ e', ¬ rule.Blames cs limit e') → FirstBroken cs limit rules e →
    FirstBroken cs limit (rule :: rules) e

/-- No rule is broken. -/
def Keeps (cs : List Char) (limit : Int) (rules : List Rule) : Prop :=
  ∀ rule ∈ rules, ∀ e, ¬ rule.Blames cs limit e

/-! ### The first broken rule -/

/-- A broken rule is reported in one way. -/
theorem Rule.Blames.unique (h : rule.Blames cs limit e) (h' : rule.Blames cs limit e') :
    e = e' := by
  cases h with
  | length | escape | ending =>
    cases h'
    rfl
  | start hc =>
    cases h' with
    | start hc' => rw [Option.some.inj (hc.symm.trans hc')]
  | closing hk =>
    cases h' with
    | closing hk' => rw [Nat.le_antisymm (hk.2 _ hk'.1) (hk'.2 _ hk.1)]
  | opening hj =>
    cases h' with
    | opening hj' => rw [Nat.le_antisymm (hj'.2 _ hj.1) (hj.2 _ hj'.1)]

theorem FirstBroken.unique (h : FirstBroken cs limit rules e)
    (h' : FirstBroken cs limit rules e') : e = e' := by
  induction h with
  | here hblames =>
    cases h' with
    | here hblames' => exact hblames.unique hblames'
    | later hkept _ => exact absurd hblames (hkept _)
  | later hkept _ ih =>
    cases h' with
    | here hblames' => exact absurd hblames' (hkept _)
    | later _ hlater => exact ih hlater

/-- What a broken rule is reported with is not that the pattern is malformed. -/
theorem FirstBroken.isMalformed_eq_false (h : FirstBroken cs limit rules e) :
    e.cause.isMalformed = false := by
  induction h with
  | here hblames => cases hblames <;> rfl
  | later _ _ ih => exact ih

theorem FirstBroken.not_keeps (h : FirstBroken cs limit rules e) : ¬ Keeps cs limit rules := by
  intro hkeeps
  induction h with
  | here hblames => exact hkeeps _ List.mem_cons_self _ hblames
  | later _ _ ih => exact ih fun rule hrule => hkeeps rule (List.mem_cons_of_mem _ hrule)

theorem FirstBroken.append (h : FirstBroken cs limit rules e) (more : List Rule) :
    FirstBroken cs limit (rules ++ more) e := by
  induction h with
  | here hblames => exact .here hblames
  | later hkept _ ih => exact .later hkept ih

/-- Rules that are kept do not change what the first broken one is. -/
theorem FirstBroken.of_keeps (h : FirstBroken cs limit more e) (hkeeps : Keeps cs limit rules) :
    FirstBroken cs limit (rules ++ more) e := by
  induction rules with
  | nil => exact h
  | cons rule rules ih =>
    exact .later (hkeeps rule List.mem_cons_self)
      (ih fun r hr => hkeeps r (List.mem_cons_of_mem rule hr))

theorem keeps_single (h : ∀ e, ¬ rule.Blames cs limit e) : Keeps cs limit [rule] := by
  intro r hr
  rw [List.mem_singleton.mp hr]
  exact h

theorem Keeps.append (h : Keeps cs limit rules) (h' : Keeps cs limit more) :
    Keeps cs limit (rules ++ more) := fun r hr =>
  (List.mem_append.mp hr).elim (h r) (h' r)

/-! ## Stages -/

section

variable {α β : Type} {x : Except Fault α}

/-- A stage succeeds where the rules are kept, and fails with the first that is broken. -/
def Enforces (cs : List Char) (limit : Int) (rules : List Rule) : Except Fault α → Prop
  | .ok _ => Keeps cs limit rules
  | .error fault => ∃ e, fault = .pattern e ∧ FirstBroken cs limit rules e

theorem enforces_ok (h : ∀ e, ¬ rule.Blames cs limit e) (a : α) :
    Enforces cs limit [rule] (.ok a : Except Fault α) :=
  keeps_single h

/-- A stage that always succeeds looks after nothing. -/
theorem enforces_nothing (a : α) : Enforces cs limit [] (.ok a : Except Fault α) :=
  fun _ hrule => absurd hrule List.not_mem_nil

theorem enforces_refuse {cause : Cause} {position : Option Int}
    (h : rule.Blames cs limit ⟨cause, position⟩) :
    Enforces cs limit [rule] (refuse cause position : Except Fault α) :=
  ⟨_, rfl, .here h⟩

/-- **Stages one after another** enforce their rules one after another. -/
theorem Enforces.bind {f : α → Except Fault β} (hx : Enforces cs limit rules x)
    (hf : ∀ a, x = .ok a → Enforces cs limit more (f a)) :
    Enforces cs limit (rules ++ more) (x >>= f) := by
  cases hresult : x with
  | error fault =>
    rw [hresult] at hx
    obtain ⟨e, rfl, hbroken⟩ := hx
    exact ⟨e, rfl, hbroken.append more⟩
  | ok a =>
    rw [hresult] at hx
    have hmore := hf a hresult
    show Enforces cs limit (rules ++ more) (f a)
    cases hlater : f a with
    | error fault =>
      rw [hlater] at hmore
      obtain ⟨e, rfl, hbroken⟩ := hmore
      exact ⟨e, rfl, hbroken.of_keeps hx⟩
    | ok b =>
      rw [hlater] at hmore
      exact Keeps.append hx hmore

/-- What is done with the result changes nothing. -/
theorem Enforces.map {f : α → β} (h : Enforces cs limit rules x) :
    Enforces cs limit rules (f <$> x) := by
  cases x with
  | error fault => exact h
  | ok a => exact h

end

/-! ## Reading -/

namespace Token

/-- **Reading looks at the last backslashes.** -/
theorem enforces_lexFrom : Enforces cs limit [.escape] (lexFrom 0 cs) := by
  by_cases h : Hanging cs
  · rw [lexFrom_of_hanging h, Nat.zero_add]
    exact enforces_refuse (.escape h)
  · obtain ⟨ts, hts⟩ : ∃ ts, lexFrom 0 cs = .ok ts := exists_lexFrom h
    rw [hts]
    refine enforces_ok (fun e hblames => ?_) ts
    cases hblames with
    | escape hhanging => exact h hhanging

variable {c : Char} {rest front : List Char} {t : Token} {ts : List Token} {n : Nat}

/-- The first token is that of the first character, or of the one behind a backslash. -/
theorem head_of_lexFrom (h : lexFrom n (c :: rest) = .ok ts) :
    (c ≠ '\\' ∧ ∃ us, ts = ofPlain c n :: us) ∨ c = '\\' ∧ ∃ d us, ts = ofEscaped d n :: us := by
  by_cases hc : c = '\\'
  · subst hc
    cases rest with
    | nil => cases h
    | cons d rest =>
      obtain ⟨us, _, rfl⟩ := map_eq_ok.mp h
      exact Or.inr ⟨rfl, d, us, rfl⟩
  · rw [lexFrom_plain hc] at h
    obtain ⟨us, _, rfl⟩ := map_eq_ok.mp h
    exact Or.inl ⟨hc, us, rfl⟩

/-- Only the empty text has no token. -/
theorem lexFrom_eq_ok (h : lexFrom n cs = .ok ts) :
    (cs = [] ∧ ts = []) ∨ ∃ first rest, ts = first :: rest := by
  cases cs with
  | nil =>
    cases h
    exact Or.inl ⟨rfl, rfl⟩
  | cons c rest =>
    rcases head_of_lexFrom h with ⟨_, us, rfl⟩ | ⟨_, d, us, rfl⟩ <;> exact Or.inr ⟨_, us, rfl⟩

/-- The last token is that of the last character, which stands on its own or behind a backslash. -/
theorem last_of_lexFrom (h : lexFrom 0 (front ++ [c]) = .ok ts) :
    (Unescaped (front ++ [c]) c front.length ∧ ts.getLast? = some (ofPlain c front.length)) ∨
    (¬ Unescaped (front ++ [c]) c front.length ∧
      ∃ n : Nat, ts.getLast? = some (ofEscaped c n)) := by
  rw [unescaped_append_iff]
  by_cases hfront : Hanging front
  · refine Or.inr ⟨fun h => h.2 hfront, ?_⟩
    -- the last backslash before `c` is not taken literally, so that reading stops before it
    induction front using List.reverseRecOn with
    | nil => exact absurd hfront not_hanging_nil
    | append_singleton before d _ =>
      have hd : d = '\\' := by
        by_contra hd
        exact not_hanging_concat hd hfront
      subst hd
      obtain ⟨us, hus⟩ : ∃ us, lexFrom 0 before = .ok us :=
        exists_lexFrom (hanging_concat_backslash.mp hfront)
      rw [List.append_assoc, lexFrom_append hus] at h
      cases h
      exact ⟨_, List.getLast?_concat⟩
  · refine Or.inl ⟨⟨rfl, hfront⟩, ?_⟩
    have hc : c ≠ '\\' := by
      rintro rfl
      rw [lexFrom_of_hanging (hanging_concat_backslash.mpr hfront)] at h
      cases h
    obtain ⟨us, hus⟩ : ∃ us, lexFrom 0 front = .ok us := exists_lexFrom hfront
    rw [lexFrom_append hus, lexFrom_plain hc, Nat.zero_add] at h
    cases h
    exact List.getLast?_concat

/-- Joining keeps the last token. -/
theorem getLast?_joinAfter (left : Token) (ts : List Token) :
    (left :: joinAfter left ts).getLast? = (left :: ts).getLast? := by
  induction ts generalizing left with
  | nil => rfl
  | cons right rest ih =>
    rw [joinAfter_cons, ← List.cons_append, List.getLast?_append, ih, List.getLast?_cons_cons,
      List.getLast?_cons, Option.some_or]

end Token

/-! ## Reordering -/

namespace ReversePolish

section

variable (c : Char) (n : Nat)

theorem checkStart_ofPlain : checkStart (Token.ofPlain c n) =
    if c ∈ startOperators then refuse (.invalidStart c.toString) (some n) else .ok () := by
  by_cases h : c ∈ startOperators
  · rw [if_pos h]
    simp only [startOperators, List.mem_cons, List.not_mem_nil, or_false] at h
    rcases h with rfl | rfl | rfl | rfl <;> rfl
  · rw [if_neg h]
    refine if_neg fun hkind => h ?_
    simpa [Kind.isJoiner_iff, Kind.isQuantifier_iff, Token.kind_ofPlain_eq_iff,
      Kind.ofOperator?_eq_some_iff, startOperators] using hkind

theorem checkStart_ofEscaped : checkStart (Token.ofEscaped c n) = .ok () := by
  have hoperand := Token.isOperand_ofEscaped c n
  rw [checkStart, Kind.isJoiner_of_isOperand hoperand, Kind.isQuantifier_of_isOperand hoperand]
  rfl

theorem checkEnd_ofPlain : checkEnd (Token.ofPlain c n) =
    if c = '|' then refuse (.invalidEnd "|") (some n) else .ok () := by
  by_cases h : c = '|'
  · rw [if_pos h, h]
    rfl
  · rw [if_neg h]
    refine if_neg fun hkind => h ?_
    simpa [Kind.isJoiner_iff, Token.kind_ofPlain_eq_iff, Kind.ofOperator?_eq_some_iff] using hkind

theorem checkEnd_ofEscaped : checkEnd (Token.ofEscaped c n) = .ok () := by
  rw [checkEnd, Kind.isJoiner_of_isOperand (Token.isOperand_ofEscaped c n)]
  rfl

end

variable {first last : Token} {ts : List Token}

/-- **The start is checked** on the first character: behind a backslash there is no operator. -/
theorem enforces_checkStart (h : Token.lexFrom 0 cs = .ok (first :: ts)) :
    Enforces cs limit [.start] (checkStart first) := by
  cases cs with
  | nil => cases h
  | cons c rest =>
    have hpass : c ∉ startOperators → Enforces (c :: rest) limit [.start] (.ok ()) := by
      refine fun hc => enforces_ok (fun e hblames => ?_) ()
      cases hblames with
      | start hhead hoperator =>
        cases hhead
        exact hc hoperator
    rcases Token.head_of_lexFrom h with ⟨_, us, hts⟩ | ⟨rfl, d, us, hts⟩
    · obtain rfl := (List.cons.inj hts).1
      rw [checkStart_ofPlain]
      by_cases hc : c ∈ startOperators
      · rw [if_pos hc]
        exact enforces_refuse (.start rfl hc)
      · rw [if_neg hc]
        exact hpass hc
    · obtain rfl := (List.cons.inj hts).1
      rw [checkStart_ofEscaped]
      exact hpass (by decide)

/-- **The end is checked** on the last character, which must not be a choice. -/
theorem enforces_checkEnd (h : Token.lexFrom 0 cs = .ok ts) (hlast : ts.getLast? = some last) :
    Enforces cs limit [.ending] (checkEnd last) := by
  induction cs using List.reverseRecOn with
  | nil =>
    cases h
    cases hlast
  | append_singleton front c _ =>
    have hlength : (front ++ [c]).length - 1 = front.length := by simp
    have hpass : ¬ Unescaped (front ++ [c]) '|' front.length →
        Enforces (front ++ [c]) limit [.ending] (.ok ()) := by
      refine fun hunescaped => enforces_ok (fun e hblames => ?_) ()
      cases hblames with
      | ending hending => exact hunescaped (hlength ▸ hending)
    rcases Token.last_of_lexFrom h with ⟨hunescaped, hplain⟩ | ⟨hunescaped, n, hescaped⟩
    · obtain rfl := Option.some.inj (hlast.symm.trans hplain)
      rw [checkEnd_ofPlain]
      by_cases hc : c = '|'
      · rw [if_pos hc, ← hlength]
        exact enforces_refuse (.ending (by rwa [hlength, ← hc]))
      · rw [if_neg hc]
        exact hpass fun h => hc (hunescaped.eq h)
    · obtain rfl := Option.some.inj (hlast.symm.trans hescaped)
      rw [checkEnd_ofEscaped]
      refine hpass fun h => hunescaped ?_
      rw [unescaped_append_iff] at h ⊢
      exact ⟨rfl, h.2⟩

/-- A stage that reports the unmatched parenthesis looks after both rules on parentheses. -/
theorem enforces_of_settles {α : Type} {x : Except Fault α} {verdict : Option PatternError}
    (h : Settles x verdict) (hunmatched : Unmatched cs verdict) :
    Enforces cs limit [.closing, .opening] x := by
  have hkept : (∀ k, ¬ Unopened cs k) → ∀ e, ¬ Rule.closing.Blames cs limit e := by
    rintro hnone e ⟨⟩
    rename_i hk
    exact hnone _ hk.1
  cases hunmatched with
  | closing hk =>
    rw [show x = .error _ from h]
    exact ⟨_, rfl, .here (.closing hk)⟩
  | opening hnone hj =>
    rw [show x = .error _ from h]
    exact ⟨_, rfl, .later (hkept hnone) (.here (.opening hj))⟩
  | none hnone hclosed =>
    obtain ⟨a, rfl⟩ := h
    have hopening : ∀ e, ¬ Rule.opening.Blames cs limit e := by
      rintro e ⟨⟩
      rename_i hj
      exact hclosed _ hj.1
    exact (keeps_single (hkept hnone)).append (keeps_single hopening)

/-- **The parentheses are checked** while the tokens are reordered. -/
theorem enforces_arrange (h : Token.lexFrom 0 cs = .ok ts) :
    Enforces cs limit [.closing, .opening] (arrange [] (Token.join ts)) := by
  have hknown : ∀ t ∈ Token.join ts, t.Known :=
    Token.forall_mem_join (fun t ht => (Token.written_of_lexFrom h t ht).known)
      fun t _ => Token.known_concatBefore t
  have hsettles := settles_arrange hknown waits_nil
  rw [unmatched?_join] at hsettles
  exact enforces_of_settles hsettles
    (unmatched_of_lexFrom (List.nil_append cs).symm not_hanging_nil rfl h scanned_zero)

theorem keeps_nil : Keeps [] limit [.start, .closing, .opening, .ending] := by
  intro rule hrule e hblames
  cases hblames with
  | length | escape => simp at hrule
  | start hhead => cases hhead
  | closing hk => exact absurd hk.1.1.lt_length (Nat.not_lt_zero _)
  | opening hj => exact absurd hj.1.opening.lt_length (Nat.not_lt_zero _)
  | ending hunescaped => exact absurd hunescaped.lt_length (Nat.not_lt_zero _)

/-- The start, the parentheses and the end are checked in this order. -/
theorem enforces_ofTokens (h : Token.lexFrom 0 cs = .ok ts) :
    Enforces cs limit [.start, .closing, .opening, .ending] (ofTokens (Token.join ts)) := by
  rcases Token.lexFrom_eq_ok h with ⟨rfl, rfl⟩ | ⟨first, rest, rfl⟩
  · exact keeps_nil
  · have hlast : (first :: rest).getLast? =
        some ((first :: Token.joinAfter first rest).getLast (List.cons_ne_nil _ _)) := by
      rw [← Token.getLast?_joinAfter, List.getLast?_eq_some_getLast (List.cons_ne_nil _ _)]
    refine (enforces_checkStart h).bind fun _ _ => ?_
    refine (enforces_arrange h).bind fun output _ => ?_
    exact (enforces_checkEnd h hlast).bind fun _ _ => enforces_nothing output

/-- **A pattern is checked** up to the order of its tokens. -/
theorem enforces_ofPattern {pattern : String} :
    Enforces pattern.toList limit [.escape, .start, .closing, .opening, .ending]
      (ofPattern pattern) := by
  refine Token.enforces_lexFrom.map.bind fun joined hjoined => ?_
  obtain ⟨ts, hts, rfl⟩ := map_eq_ok.mp hjoined
  exact enforces_ofTokens hts

end ReversePolish

/-! ## Compilation -/

variable {pattern : String} {A : Automaton} {fault : Fault}

/-- All that is checked of a pattern before its expressions are put together. -/
def screen (pattern : String) (limit : Int) : Except Fault (List Token) :=
  if limit < pattern.length then refuse (.tooLong pattern.length limit) none
  else ReversePolish.ofPattern pattern

theorem enforces_screen : Enforces pattern.toList limit Rule.inOrder (screen pattern limit) := by
  unfold screen
  rw [← String.length_toList]
  by_cases h : limit < pattern.toList.length
  · rw [if_pos h]
    exact ⟨_, rfl, .here (.length h)⟩
  · rw [if_neg h]
    have hlength : ∀ e, ¬ Rule.length.Blames pattern.toList limit e := by
      rintro e ⟨hlt⟩
      exact h hlt
    exact (enforces_ok hlength ()).bind fun _ _ => ReversePolish.enforces_ofPattern

/-- What passes is put together; nothing can go wrong with the empty pattern. -/
theorem compile_eq_screen (pattern : String) (limit : Int) : compile pattern limit =
    screen pattern limit >>= fun output =>
      if pattern.isEmpty then Drafting.assembleEmpty.result
      else (Drafting.assemble output).result := by
  unfold compile screen
  by_cases hlength : limit < pattern.length
  · rw [if_pos hlength, if_pos hlength]
    rfl
  · rw [if_neg hlength, if_neg hlength]
    by_cases hempty : pattern.isEmpty = true
    · obtain rfl := String.isEmpty_iff.mp hempty
      rfl
    · simp only [if_neg hempty]

/-- **What the error of a refused pattern is**: that of the first broken rule, and where no rule is
broken that the pattern is malformed, without a position or at one in the pattern. -/
inductive Diagnosed (cs : List Char) (limit : Int) : PatternError → Prop where
  | broken {e : PatternError} : FirstBroken cs limit Rule.inOrder e → Diagnosed cs limit e
  | malformed {cause : Cause} {position : Option Int} : Keeps cs limit Rule.inOrder →
    cause.isMalformed = true → (∀ n, position = some n → 0 ≤ n ∧ n < cs.length) →
    Diagnosed cs limit ⟨cause, position⟩

theorem malformed_of_assemble {output : List Token}
    (h : ReversePolish.ofPattern pattern = .ok output)
    (hfault : (Drafting.assemble output).result = .error fault) :
    ∃ cause position, fault = .pattern ⟨cause, position⟩ ∧ cause.isMalformed = true ∧
      ∀ n, position = some n → 0 ≤ n ∧ n < pattern.toList.length := by
  obtain ⟨cause, position, rfl, hcause, hposition⟩ :=
    Drafting.malformed_of_assemble (ReversePolish.known_of_ofPattern h) hfault
  refine ⟨cause, position, rfl, hcause, fun n hn => ?_⟩
  rcases hposition with rfl | ⟨t, ht, rfl⟩
  · cases hn
  · obtain ⟨place, hplace, hposition⟩ := ReversePolish.placed_of_ofPattern h t ht
    rw [hposition] at hn
    cases hn
    omega

/-- **A pattern compiles and keeps all rules, or is refused** with its diagnosis. -/
theorem compile_cases (pattern : String) (limit : Int) :
    (∃ A, compile pattern limit = .ok A ∧ Keeps pattern.toList limit Rule.inOrder) ∨
    ∃ e, compile pattern limit = .error (.pattern e) ∧ Diagnosed pattern.toList limit e := by
  have hrules : Enforces pattern.toList limit Rule.inOrder (screen pattern limit) := enforces_screen
  rw [compile_eq_screen]
  cases hscreen : screen pattern limit with
  | error fault =>
    rw [hscreen] at hrules
    obtain ⟨e, rfl, hbroken⟩ := hrules
    exact Or.inr ⟨e, rfl, .broken hbroken⟩
  | ok output =>
    rw [hscreen] at hrules
    have hkeeps : Keeps pattern.toList limit Rule.inOrder := hrules
    have horder : ReversePolish.ofPattern pattern = .ok output := by
      unfold screen at hscreen
      split at hscreen
      · cases hscreen
      · exact hscreen
    simp only [bind, Except.bind]
    by_cases hempty : pattern.isEmpty = true
    · obtain ⟨A, hA, _⟩ := Drafting.assembleEmpty_spec
      exact Or.inl ⟨A, (if_pos hempty).trans hA, hkeeps⟩
    · rw [if_neg hempty]
      cases hassemble : (Drafting.assemble output).result with
      | ok A => exact Or.inl ⟨A, rfl, hkeeps⟩
      | error fault =>
        obtain ⟨cause, position, rfl, hcause, hposition⟩ := malformed_of_assemble horder hassemble
        exact Or.inr ⟨_, rfl, .malformed hkeeps hcause hposition⟩

/-- If it fails, it is with an error of the pattern. -/
def OnlyRefuses {α : Type} (x : Except Fault α) : Prop :=
  ∀ fault, x = .error fault → ∃ e, fault = .pattern e

/-- **A pattern that does not compile is refused** with an error of the pattern. -/
theorem onlyRefuses_compile (pattern : String) (limit : Int) :
    OnlyRefuses (compile pattern limit) := by
  intro fault hfault
  rcases compile_cases pattern limit with ⟨A, hA, _⟩ | ⟨e, he, _⟩
  · cases hfault.symm.trans hA
  · exact ⟨e, Except.error.inj (hfault.symm.trans he)⟩

/-- What compiles breaks no rule. -/
theorem keeps_of_compile (h : compile pattern limit = .ok A) :
    Keeps pattern.toList limit Rule.inOrder := by
  rcases compile_cases pattern limit with ⟨_, _, hkeeps⟩ | ⟨e, he, _⟩
  · exact hkeeps
  · cases h.symm.trans he

/-- **A pattern that breaks a rule is refused** for the first one that it breaks. -/
theorem refused_of_firstBroken (h : FirstBroken pattern.toList limit Rule.inOrder e) :
    compile pattern limit = .error (.pattern e) := by
  rcases compile_cases pattern limit with ⟨_, _, hkeeps⟩ | ⟨e', he', hdiagnosed⟩
  · exact absurd hkeeps h.not_keeps
  · cases hdiagnosed with
    | broken h' => rw [he', h.unique h']
    | malformed hkeeps _ _ => exact absurd hkeeps h.not_keeps

/-! ## Main result -/

/-- **Which error is reported, and where.** A refused pattern is refused with the error of the first
rule that it breaks: it is too long, ends in a backslash, starts with an operator, has a parenthesis
that closes no group, has a group that is never closed, or ends with a choice. Only if it breaks
none is it reported as malformed, without a position or at one in the pattern. And a pattern that
breaks a rule is refused. -/
theorem refusal_diagnosed (pattern : String) (limit : Int) :
    (∀ fault, compile pattern limit = .error fault →
      ∃ e, fault = .pattern e ∧ Diagnosed pattern.toList limit e) ∧
    ∀ e, FirstBroken pattern.toList limit Rule.inOrder e →
      compile pattern limit = .error (.pattern e) := by
  refine ⟨fun fault h => ?_, fun e h => refused_of_firstBroken h⟩
  rcases compile_cases pattern limit with ⟨A, hA, _⟩ | ⟨e, he, hdiagnosed⟩
  · cases h.symm.trans hA
  · exact ⟨e, Except.error.inj (h.symm.trans he), hdiagnosed⟩

/-- A group that is closed twice, one that is never closed, and a choice at the end. -/
theorem refusal_diagnosed_several :
    compile "(a))(b|" 100 = .error (.pattern ⟨.unmatchedClosing, some 3⟩) ∧
      FirstBroken "(a))(b|".toList 100 Rule.inOrder ⟨.unmatchedClosing, some 3⟩ := by
  have h : compile "(a))(b|" 100 = .error (.pattern ⟨.unmatchedClosing, some 3⟩) := rfl
  obtain ⟨e, he, hdiagnosed⟩ := (refusal_diagnosed "(a))(b|" 100).1 _ h
  obtain rfl := Fault.pattern.inj he
  cases hdiagnosed with
  | broken hbroken => exact ⟨(refusal_diagnosed "(a))(b|" 100).2 _ hbroken, hbroken⟩
  | malformed _ hcause _ => cases hcause

end RegexStepper

import RegexStepper.Proofs.Pattern.Escapes
import RegexStepper.Proofs.PatternLanguage
import RegexStepper.Proofs.Positions
import RegexStepper.Proofs.Refusal

/-!
# A group around the whole

Parentheses around a whole pattern change nothing but the places in it, also where the pattern is no
expression and has no tree. So it is the two runs that are compared.

They differ by one parenthesis at the bottom of the operators that wait. Nothing is released past
it, so that it is there when the list ends, and the end of its group then releases what the end of
the list would have (`ReversePolish.Run.grouped`). At the edges no concatenation is implied, since an
opening parenthesis ends nothing and a closing one begins nothing (`Token.join_group`).

Headline: **`group_transparent`**.
-/

namespace RegexStepper

/-! ## Around a token list -/

namespace Token

variable {opening closing : Token}

/-- **No concatenation is implied at the edges of a group.** -/
theorem join_group (hopening : opening.kind = .opening) (hclosing : closing.kind = .closing)
    (ts : List Token) : join (opening :: (ts ++ [closing])) = opening :: (join ts ++ [closing]) := by
  have hends : opening.kind.endsExpression = false := by rw [hopening]; rfl
  have hbegins : closing.kind.beginsExpression = false := by rw [hclosing]; rfl
  rw [join_cons, joinAfter_concat hbegins, joinAfter_eq_join hends]

end Token

namespace ReversePolish

variable {f : Token → Token} {waiting released left ts out : List Token}
  {opening closing : Token} {k : Kind}

/-- What is released depends on the kinds alone, and on none below an open group. -/
theorem release_grouped (hf : ∀ t, (f t).kind = t.kind) (hopening : opening.kind = .opening)
    (h : release k waiting = .ok (released, left)) :
    release k (waiting.map f ++ [opening]) = .ok (released.map f, left.map f ++ [opening]) := by
  induction waiting generalizing released left with
  | nil =>
    cases h
    exact if_pos hopening
  | cons top waiting ih =>
    unfold release at h
    rw [List.map_cons, List.cons_append, release, hf]
    by_cases htop : top.kind = .opening
    · rw [if_pos htop] at h ⊢
      cases h
      rfl
    · rw [if_neg htop] at h ⊢
      obtain ⟨held, hheld, h⟩ := bind_eq_ok.mp h
      obtain ⟨asked, hasked, h⟩ := bind_eq_ok.mp h
      refine bind_eq_ok.mpr ⟨held, hheld, bind_eq_ok.mpr ⟨asked, hasked, ?_⟩⟩
      by_cases hle : asked ≤ held
      · rw [if_pos hle] at h ⊢
        obtain ⟨⟨released', left'⟩, hrest, h⟩ := bind_eq_ok.mp h
        cases h
        exact bind_eq_ok.mpr ⟨_, ih hrest, rfl⟩
      · rw [if_neg hle] at h ⊢
        cases h
        rfl

/-- **A group around the whole**: reading goes on the same over the parenthesis that opens it, and
where the list ended the group does. -/
theorem Run.grouped (hf : ∀ t, (f t).kind = t.kind) (hopening : opening.kind = .opening)
    (hclosing : closing.kind = .closing) (h : Run waiting ts out) :
    Run (waiting.map f ++ [opening]) (ts.map f ++ [closing]) (out.map f) := by
  have hmap : ∀ {us : List Token}, (∀ t ∈ us, t.kind ≠ .opening) →
      ∀ t ∈ us.map f, t.kind ≠ .opening := by
    intro us hus t ht
    obtain ⟨u, hu, rfl⟩ := List.mem_map.mp ht
    rw [hf]
    exact hus u hu
  induction h with
  | @drain _ output hdrain =>
    obtain ⟨rfl, hwaiting⟩ := drain_eq_ok hdrain
    have hclose : closeGroup closing.position (output.map f ++ [opening]) =
        .ok (output.map f, []) := closeGroup_append _ (hmap hwaiting) hopening
    have hrun := Run.closing hclosing hclose (.drain rfl)
    rwa [List.append_nil] at hrun
  | operand hkind _ ih => exact .operand (by rw [hf]; exact hkind) ih
  | opening hkind _ ih => exact .opening ((hf _).trans hkind) ih
  | closing hkind hclose _ ih =>
    obtain ⟨inner, rfl, hinner, hreleased⟩ := closeGroup_eq_ok hclose
    rw [List.map_append, List.map_append, List.map_cons, List.append_assoc, List.cons_append]
    exact .closing ((hf _).trans hkind)
      (closeGroup_append _ (hmap hreleased) ((hf inner).trans hinner)) ih
  | @operator _ _ _ _ _ t hoperand hne hne' hrelease _ ih =>
    rw [← hf t] at hoperand hne hne' hrelease
    rw [List.map_append]
    exact .operator hoperand hne hne' (release_grouped hf hopening hrelease) ih

/-- A list that is reordered as a whole is reordered alike in a group. -/
theorem ofTokens_group (hf : ∀ t, (f t).kind = t.kind) (hopening : opening.kind = .opening)
    (hclosing : closing.kind = .closing) (h : ofTokens ts = .ok out) :
    ofTokens (opening :: (ts.map f ++ [closing])) = .ok (out.map f) := by
  have hrun := (run_of_arrange (arrange_of_ofTokens h)).grouped hf hopening hclosing
  have harrange := (Run.opening hopening hrun).arrange_eq
  have hstart : checkStart opening = .ok () := checkStart_eq_ok (by rw [hopening]; rfl)
  have hend : checkEnd closing = .ok () := checkEnd_eq_ok (by rw [hclosing]; rfl)
  have hlast : (opening :: (ts.map f ++ [closing])).getLast (List.cons_ne_nil _ _) = closing :=
    List.getLast_concat (l := opening :: ts.map f)
  rw [ofTokens, hstart, harrange, hlast, hend]
  rfl

end ReversePolish

/-! ## Around a pattern -/

/-- The pattern in parentheses, character by character. -/
theorem toList_group (pattern : String) :
    ("(" ++ pattern ++ ")").toList = '(' :: (pattern.toList ++ [')']) := by
  simp

/-- It is read into the same tokens, one place further along, in parentheses. -/
theorem Token.ofPattern_group {pattern : String} {ts : List Token} (h : ofPattern pattern = .ok ts) :
    ofPattern ("(" ++ pattern ++ ")") = .ok
      (ofPlain '(' 0 :: (ts.map (shift 1) ++ [ofPlain ')' (1 + pattern.toList.length : Nat)])) := by
  unfold ofPattern
  rw [toList_group, lexFrom_plain (by decide), lexFrom_append (lexFrom_shift h 1)]
  rfl

/-- **It is reordered into the same tokens**, one place further along. -/
theorem ReversePolish.ofPattern_group {pattern : String} {output : List Token}
    (h : ofPattern pattern = .ok output) :
    ofPattern ("(" ++ pattern ++ ")") = .ok (output.map (Token.shift 1)) := by
  obtain ⟨joined, hjoined, hreordered⟩ := bind_eq_ok.mp h
  obtain ⟨ts, hts, rfl⟩ := map_eq_ok.mp hjoined
  refine bind_eq_ok.mpr ⟨_, map_eq_ok.mpr ⟨_, Token.ofPattern_group hts, rfl⟩, ?_⟩
  rw [Token.join_group rfl rfl, Token.join_shift]
  exact ofTokens_group (fun _ => rfl) rfl rfl hreordered

/-! ## Main result -/

/-- A pattern that the builder gets is built alike in parentheses. -/
theorem compile_group {pattern : String} {output : List Token} {limit : Int}
    (h : ReversePolish.ofPattern pattern = .ok output) (hne : pattern ≠ "")
    (hlength : pattern.length ≤ limit) (hlength' : ("(" ++ pattern ++ ")").length ≤ limit) :
    compile pattern limit = (Drafting.assemble output).result ∧
    compile ("(" ++ pattern ++ ")") limit =
      (Drafting.assemble output).result.mapError (Fault.shift 1) := by
  have hne' : "(" ++ pattern ++ ")" ≠ "" := fun hempty => by
    have hlist := toList_group pattern
    rw [hempty] at hlist
    cases hlist
  rw [compile_eq hne hlength, compile_eq hne' hlength', h, ReversePolish.ofPattern_group h,
    ← Drafting.result_assemble_shift]
  exact ⟨rfl, rfl⟩

/-- **A group around the whole pattern is transparent.** A pattern that is reordered is reordered in
parentheses into the same tokens, each one place further along. So, if it is not empty, it compiles
to the same automaton under any limit that both meet, or both are malformed for the same cause, one
place further along. -/
theorem group_transparent {pattern : String} {output : List Token}
    (h : ReversePolish.ofPattern pattern = .ok output) :
    ReversePolish.ofPattern ("(" ++ pattern ++ ")") = .ok (output.map (Token.shift 1)) ∧
    ∀ limit : Int, pattern ≠ "" → pattern.length ≤ limit →
      ("(" ++ pattern ++ ")").length ≤ limit →
      (∃ A, compile pattern limit = .ok A ∧ compile ("(" ++ pattern ++ ")") limit = .ok A) ∨
      ∃ cause position, cause.isMalformed = true ∧
        compile pattern limit = .error (.pattern ⟨cause, position⟩) ∧
        compile ("(" ++ pattern ++ ")") limit =
          .error (.pattern ⟨cause, position.map (· + 1)⟩) := by
  refine ⟨ReversePolish.ofPattern_group h, fun limit hne hlength hlength' => ?_⟩
  obtain ⟨hplain, hgroup⟩ := compile_group h hne hlength hlength'
  rw [hplain, hgroup]
  cases hassemble : (Drafting.assemble output).result with
  | ok A => exact Or.inl ⟨A, rfl, rfl⟩
  | error fault =>
    obtain ⟨cause, position, rfl, hcause, _⟩ :=
      Drafting.malformed_of_assemble (ReversePolish.known_of_ofPattern h) hassemble
    exact Or.inr ⟨cause, position, hcause, rfl, rfl⟩

/-- Reordering lets a star alone in a group pass. It repeats what stands before the union, which then
lacks an operand, with parentheses around the whole as without. -/
theorem group_transparent_lone_star :
    ∃ output, ReversePolish.ofPattern "a|(*)b" = .ok output ∧ Token.textOf output = .ok "a*b·|" ∧
      ReversePolish.ofPattern "(a|(*)b)" = .ok (output.map (Token.shift 1)) ∧
      compile "a|(*)b" 8 = .error (.pattern ⟨.tooFewOperands "|" 2 1, some 1⟩) ∧
      compile "(a|(*)b)" 8 = .error (.pattern ⟨.tooFewOperands "|" 2 1, some 2⟩) := by
  have houtput : ReversePolish.ofPattern "a|(*)b" = .ok _ := rfl
  have hfault : (match compile "a|(*)b" 8 with | .ok _ => none | .error fault => some fault) =
      some (.pattern ⟨.tooFewOperands "|" 2 1, some 1⟩) := by decide +kernel
  have htext : "(" ++ "a|(*)b" ++ ")" = "(a|(*)b)" := by decide
  obtain ⟨hgroup, hcompile⟩ := group_transparent houtput
  rw [htext] at hgroup hcompile
  rcases hcompile 8 (by decide) (by decide) (by decide) with
    ⟨A, hA, _⟩ | ⟨cause, position, _, hplain, hgrouped⟩
  · rw [hA] at hfault
    cases hfault
  · rw [hplain] at hfault
    cases hfault
    exact ⟨_, houtput, rfl, hgroup, hplain, hgrouped⟩

end RegexStepper

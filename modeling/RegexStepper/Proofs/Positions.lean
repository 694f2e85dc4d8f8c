import RegexStepper.Draft
import RegexStepper.Proofs.Grammar.Joined

/-!
# Positions are for reports

`Token.shift n` moves a token `n` places along the pattern. No stage looks at a position but to
report it, so that each does with the tokens that have been moved what it does with those that have
not.

Headlines:
* `Token.lexFrom_shift`, `Token.join_shift`: text that stands further along is read and joined into
  the tokens moved there;
* **`Drafting.result_assemble_shift`**: tokens that have been moved are assembled into the same
  automaton, or fail for the same cause at the place moved along with them.
-/

namespace RegexStepper

/-! ## Tokens -/

namespace Token

/-- The token `n` places further along. -/
def shift (n : Int) (t : Token) : Token :=
  { t with position := t.position.map (· + n) }

@[simp] theorem kind_shift (n : Int) (t : Token) : (t.shift n).kind = t.kind := rfl

@[simp] theorem value_shift (n : Int) (t : Token) : (t.shift n).value = t.value := rfl

theorem ofPlain_add (c : Char) (position n : Int) :
    ofPlain c (position + n) = (ofPlain c position).shift n := by
  unfold ofPlain
  split <;> rfl

theorem ofEscaped_add (c : Char) (position n : Int) :
    ofEscaped c (position + n) = (ofEscaped c position).shift n := by
  unfold ofEscaped
  split <;> rfl

/-- **What stands further along** is read into the tokens moved there. -/
theorem lexFrom_shift {position : Nat} {cs : List Char} {ts : List Token}
    (h : lexFrom position cs = .ok ts) (n : Nat) :
    lexFrom (position + n) cs = .ok (ts.map (shift n)) := by
  induction cs using reading_induction generalizing position ts with
  | nil =>
    cases h
    rfl
  | lone => cases h
  | escaped c rest ih =>
    obtain ⟨us, hus, rfl⟩ := map_eq_ok.mp h
    have hnext : position + n + 2 = position + 2 + n := by omega
    rw [lexFrom_escaped, hnext, ih hus, Int.natCast_add, ofEscaped_add]
    rfl
  | plain c rest hc ih =>
    rw [lexFrom_plain hc] at h
    obtain ⟨us, hus, rfl⟩ := map_eq_ok.mp h
    have hnext : position + n + 1 = position + 1 + n := by omega
    rw [lexFrom_plain hc, hnext, ih hus, Int.natCast_add, ofPlain_add]
    rfl

theorem link_shift (n : Int) (left right : Token) :
    link (left.shift n) (right.shift n) = (link left right).map (shift n) := by
  unfold link
  rw [show junction (left.shift n) (right.shift n) = junction left right from rfl]
  split <;> rfl

theorem joinAfter_shift (n : Int) (left : Token) (ts : List Token) :
    joinAfter (left.shift n) (ts.map (shift n)) = (joinAfter left ts).map (shift n) := by
  induction ts generalizing left with
  | nil => rfl
  | cons right rest ih =>
    rw [List.map_cons, joinAfter_cons, joinAfter_cons, link_shift, ih, List.map_append,
      List.map_cons]

/-- The concatenations stand where the tokens do. -/
theorem join_shift (n : Int) (ts : List Token) :
    join (ts.map (shift n)) = (join ts).map (shift n) := by
  rw [join_eq_joinAfter, join_eq_joinAfter, ← joinAfter_shift]
  rfl

end Token

/-! ## Faults -/

/-- The fault `n` places further along, if it stands at one. -/
def Fault.shift (n : Int) : Fault → Fault
  | pattern e => pattern { e with position := e.position.map (· + n) }
  | fault => fault

variable {n : Int}

theorem Fault.shift_ofIndex {absent : Int → Fault} (h : ∀ i, (absent i).shift n = absent i)
    (index : Int) : (ofIndex absent index).shift n = ofIndex absent index := by
  unfold ofIndex
  split
  · exact h index
  · rfl

theorem mapError_bind {α β : Type} (f : Fault → Fault) (x : Except Fault α)
    (g : α → Except Fault β) :
    (x >>= g).mapError f = x.mapError f >>= fun a => (g a).mapError f := by
  cases x <;> rfl

/-- What a token cannot be printed for has no place. -/
theorem Token.mapError_text (t : Token) : t.text.mapError (Fault.shift n) = t.text := by
  obtain ⟨kind, value, position⟩ := t
  cases kind <;> cases value <;> rfl

theorem Automaton.mapError_stateAt (states : Array State) (i : Int) :
    (stateAt states i).mapError (Fault.shift n) = stateAt states i := by
  unfold stateAt
  split
  · rfl
  · exact congrArg Except.error (Fault.shift_ofIndex (fun _ => rfl) i)

/-- Nor has what a draft cannot be finished for. -/
theorem Draft.mapError_finish (d : Draft) (start final : Int) :
    (d.finish start final).mapError (Fault.shift n) = d.finish start final := by
  unfold finish
  split
  · exact congrArg Except.error (Fault.shift_ofIndex (fun _ => rfl) start)
  · simp only [mapError_bind, Automaton.mapError_stateAt]
    rfl

/-! ## Assembling -/

namespace Drafting

variable {α β : Type}

/-- `x'` does what `x` does, and where `x` fails it fails `n` places further along. -/
def Shifts (n : Int) (x x' : Drafting α) : Prop :=
  EStateM.adaptExcept (Fault.shift n) x = x'

theorem Shifts.bind {x x' : Drafting α} {f f' : α → Drafting β} (hx : Shifts n x x')
    (hf : ∀ a, Shifts n (f a) (f' a)) : Shifts n (x >>= f) (x' >>= f') := by
  unfold Shifts at hx ⊢
  subst hx
  funext d
  simp only [EStateM.adaptExcept, Bind.bind, EStateM.bind]
  cases x d with
  | ok a d => exact congrFun (hf a) d
  | error e d => rfl

theorem shifts_forM {f f' : α → Drafting Unit} (hf : ∀ a, Shifts n (f a) (f' a)) (as : List α) :
    Shifts n (forM as f) (forM as f') := by
  induction as with
  | nil => rfl
  | cons a as ih =>
    rw [List.forM_cons, List.forM_cons]
    exact (hf a).bind fun _ => ih

theorem shifts_attempt {x x' : Except Fault α} (h : x.mapError (Fault.shift n) = x') :
    Shifts n (attempt x) (attempt x') := by
  subst h
  cases x <;> rfl

theorem shifts_mark (i : Nat) (accepting : Bool) :
    Shifts n (mark i accepting) (mark i accepting) := by
  funext d
  unfold mark EStateM.adaptExcept
  by_cases h : i < d.accepting.size
  · simp only [dif_pos h]
  · simp only [dif_neg h]
    rfl

theorem shifts_unmark (f : Fragment) : Shifts n (unmark f) (unmark f) :=
  (shifts_mark f.start false).bind fun _ => shifts_mark f.final false

/-- Taking fragments fails only for the operator. -/
theorem shifts_take (count : Int) (operator : Token) :
    Shifts n (take count operator) (take count (operator.shift n)) := by
  unfold take
  refine Shifts.bind rfl fun d => ?_
  by_cases hlt : d.fragments.length < count
  · simp only [if_pos hlt]
    exact (shifts_attempt operator.mapError_text).bind fun text => rfl
  · simp only [if_neg hlt]
    exact Shifts.bind rfl fun _ => (shifts_forM shifts_unmark _).bind fun _ => rfl

theorem shifts_juxtapose (t : Token) : Shifts n (juxtapose t) (juxtapose (t.shift n)) := by
  refine (shifts_take 2 t).bind fun operands => ?_
  split <;> rfl

theorem shifts_alternate (t : Token) : Shifts n (alternate t) (alternate (t.shift n)) := by
  refine (shifts_take 2 t).bind fun operands => ?_
  split <;> rfl

theorem shifts_iterate (t : Token) (again bypass : Bool) :
    Shifts n (iterate t again bypass) (iterate (t.shift n) again bypass) := by
  refine (shifts_take 1 t).bind fun operands => ?_
  split
  · cases again <;> cases bypass <;> rfl
  · rfl

/-- **One token** fails where it stands. -/
theorem shifts_apply (t : Token) : Shifts n (apply t) (apply (t.shift n)) := by
  unfold apply
  rw [Token.kind_shift, Token.value_shift]
  split
  · rfl
  · rfl
  · exact shifts_juxtapose t
  · exact shifts_alternate t
  · exact shifts_iterate t true true
  · exact shifts_iterate t true false
  · exact shifts_iterate t false true
  all_goals exact (shifts_attempt t.mapError_text).bind fun text => rfl

/-- So does a list, and what is left at the end stands at no place. -/
theorem shifts_assemble (ts : List Token) :
    Shifts n (assemble ts) (assemble (ts.map (Token.shift n))) := by
  unfold assemble
  rw [List.forM_map]
  refine (shifts_forM shifts_apply ts).bind fun _ => Shifts.bind rfl fun d => ?_
  split
  · refine Shifts.bind rfl fun _ => (shifts_mark _ _).bind fun _ => ?_
    refine (shifts_mark _ _).bind fun _ => ?_
    exact Shifts.bind rfl fun d => shifts_attempt (d.mapError_finish _ _)
  · rfl

/-- **Tokens further along are assembled alike.** -/
theorem result_assemble_shift (n : Int) (ts : List Token) :
    (assemble (ts.map (Token.shift n))).result =
      (assemble ts).result.mapError (Fault.shift n) := by
  rw [← shifts_assemble]
  unfold result
  rw [EStateM.run_adaptExcept]
  cases (assemble ts).run Draft.empty <;> rfl

end Drafting

end RegexStepper

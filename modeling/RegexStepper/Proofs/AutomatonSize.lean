import RegexStepper.Proofs.PatternLanguage

/-!
# The size of a compiled automaton

Each token of a pattern brings its own states (`Kind.states`) and transitions (`Kind.arrows`). No
token is written for a concatenation, which brings one transition and no state; but an expression of
`n` operands has `n - 1` operators between two operands, so that each operand can stand for the
transition that joins it to what is before it. That counts one too many for the first operand, and
one too many for each union, which `Kind.arrows` takes off.

Headline: **`compiled_size`**: how many states and transitions the automaton has, by the tokens of
the pattern, and that both are linear in its length.
-/

namespace RegexStepper

namespace Kind

/-- How many states a token of the kind brings. -/
def states : Kind → Nat
  | literal | epsilon | union | star | plus | optional => 2
  | concat | opening | closing | other _ => 0

/-- How many transitions a token of the kind brings, where an operand stands for a concatenation
too. -/
def arrows : Kind → Nat
  | literal | epsilon => 2
  | union | plus | optional => 3
  | star => 4
  | concat | opening | closing | other _ => 0

theorem states_le (k : Kind) : k.states ≤ 2 := by
  cases k <;> simp [states]

theorem arrows_le (k : Kind) : k.arrows ≤ 4 := by
  cases k <;> simp [arrows]

end Kind

/-! ## Counting tokens -/

namespace Token

variable {f : Kind → Nat} {ts us : List Token}

/-- How many tokens of a list are of a kind. -/
def count (k : Kind) (ts : List Token) : Nat :=
  ts.countP (·.kind == k)

/-- How many tokens of a list are literals or the empty string. -/
def countOperands (ts : List Token) : Nat :=
  ts.countP (·.kind.isOperand)

/-- What the tokens of a list bring together. -/
def total (f : Kind → Nat) : List Token → Nat
  | [] => 0
  | t :: ts => f t.kind + total f ts

@[simp] theorem total_nil : total f [] = 0 := rfl

@[simp] theorem total_cons (t : Token) : total f (t :: ts) = f t.kind + total f ts := rfl

@[simp] theorem total_append : total f (ts ++ us) = total f ts + total f us := by
  induction ts with
  | nil => exact (Nat.zero_add _).symm
  | cons t ts ih => rw [List.cons_append, total_cons, total_cons, ih, Nat.add_assoc]

/-- If no token brings more than `m`, a list brings at most `m` for each of its tokens. -/
theorem total_le {m : Nat} (hf : ∀ k, f k ≤ m) (ts : List Token) : total f ts ≤ m * ts.length := by
  induction ts with
  | nil => exact Nat.zero_le _
  | cons t ts ih =>
    have ht := hf t.kind
    rw [total_cons, List.length_cons, Nat.mul_succ]
    omega

/-- If both operands bring the same, and concatenations, parentheses and unknown kinds nothing, it
is enough to count by kind. -/
theorem total_eq (hoperand : f .epsilon = f .literal) (hconcat : f .concat = 0)
    (hopening : f .opening = 0) (hclosing : f .closing = 0) (hother : ∀ name, f (.other name) = 0)
    (ts : List Token) :
    total f ts = f .literal * countOperands ts + f .union * count .union ts +
      f .star * count .star ts + f .plus * count .plus ts + f .optional * count .optional ts := by
  induction ts with
  | nil => rfl
  | cons t ts ih =>
    simp only [count, countOperands] at ih ⊢
    rw [total_cons, ih]
    cases hkind : t.kind <;>
      simp only [List.countP_cons, hkind, Kind.isOperand, hoperand, hconcat, hopening, hclosing,
        hother, Nat.mul_add] <;>
      simp <;> omega

theorem total_states (ts : List Token) :
    total Kind.states ts = 2 * (countOperands ts + count .union ts + count .star ts +
      count .plus ts + count .optional ts) := by
  rw [total_eq rfl rfl rfl rfl fun _ => rfl]
  simp only [Kind.states, Nat.mul_add]

theorem total_arrows (ts : List Token) :
    total Kind.arrows ts = 2 * countOperands ts + 3 * count .union ts + 4 * count .star ts +
      3 * count .plus ts + 3 * count .optional ts :=
  total_eq rfl rfl rfl rfl (fun _ => rfl) ts

end Token

/-! ## The size of a tree -/

namespace Regex

variable {f g outer : Fragment}

theorem length_unionEdges : (unionEdges f g outer).length = 4 := rfl

theorem length_repeatEdges (again bypass : Bool) :
    (repeatEdges again bypass f outer).length = 2 + again.toNat + bypass.toNat := by
  cases again <;> cases bypass <;> rfl

end Regex

namespace Tree

open Token

variable {tree : Tree}

/-- A valid tree has the states that its tokens bring. -/
theorem width_regex (h : tree.Valid) : tree.regex.width = total Kind.states tree.spelling := by
  induction tree with
  | operand t =>
    rcases Kind.isOperand_iff.mp h with hkind | hkind
    · cases hvalue : t.value <;>
        simp [regex, spelling, hkind, hvalue, Regex.ofSymbol?, Regex.width, Kind.states]
    · simp [regex, spelling, hkind, Regex.width, Kind.states]
  | group opening body closing ih =>
    obtain ⟨hopening, hclosing, hbody⟩ := h
    simp [regex, spelling, hopening, hclosing, ih hbody, Kind.states]
  | quantified body operator ih =>
    obtain ⟨hoperator, _, hbody⟩ := h
    rcases Kind.isQuantifier_iff.mp hoperator with hkind | hkind | hkind <;>
      simp [regex, spelling, hkind, quantify, Regex.width, ih hbody, Kind.states]
  | concat left operator right ihl ihr =>
    obtain ⟨_, _, _, hleft, hright⟩ := h
    rw [regex, Regex.width, spelling, total_append, ihl hleft, ihr hright]
  | union left operator right ihl ihr =>
    obtain ⟨hoperator, _, hleft, hright⟩ := h
    have hnew : operator.kind.states = 2 := by rw [hoperator]; rfl
    rw [regex, Regex.width, spelling, total_append, total_cons, ihl hleft, ihr hright, hnew]
    omega

/-- It has the transitions that its tokens bring, less the one that would join its first operand to
what is before it. -/
theorem length_edges_regex (h : tree.Valid) (base : Nat) :
    (tree.regex.edges base).length + 1 = total Kind.arrows tree.spelling := by
  induction tree generalizing base with
  | operand t =>
    rcases Kind.isOperand_iff.mp h with hkind | hkind
    · cases hvalue : t.value <;>
        simp [regex, spelling, hkind, hvalue, Regex.ofSymbol?, Regex.edges, Kind.arrows]
    · simp [regex, spelling, hkind, Regex.edges, Kind.arrows]
  | group opening body closing ih =>
    obtain ⟨hopening, hclosing, hbody⟩ := h
    simp [regex, spelling, hopening, hclosing, ih hbody, Kind.arrows]
  | quantified body operator ih =>
    obtain ⟨hoperator, _, hbody⟩ := h
    have hinner := ih hbody base
    rcases Kind.isQuantifier_iff.mp hoperator with hkind | hkind | hkind <;>
      simp only [regex, spelling, hkind, quantify, Regex.edges, List.length_append,
        Regex.length_repeatEdges, total_append, total_cons, total_nil, Kind.arrows,
        Bool.toNat_true, Bool.toNat_false] <;>
      omega
  | concat left operator right ihl ihr =>
    obtain ⟨_, _, _, hleft, hright⟩ := h
    have hl := ihl hleft base
    have hr := ihr hright (base + left.regex.width)
    rw [regex, Regex.edges, spelling, List.length_append, List.length_append, total_append,
      List.length_singleton]
    omega
  | union left operator right ihl ihr =>
    obtain ⟨hoperator, _, hleft, hright⟩ := h
    have hl := ihl hleft base
    have hr := ihr hright (base + left.regex.width)
    have hnew : operator.kind.arrows = 3 := by rw [hoperator]; rfl
    rw [regex, Regex.edges, spelling, List.length_append, List.length_append, total_append,
      total_cons, Regex.length_unionEdges, hnew]
    omega

end Tree

/-! ## Main result -/

variable {pattern : String} {limit : Int} {A : Automaton}

/-- **The exact size of the automaton** of a pattern that is not empty: two states for each operand,
union and quantifier; two transitions for each operand, but for the first of them, three for each
union, `+` and `?`, and four for each `*`. So it has at most two states and less than four
transitions for each character, and the limit on the length bounds both. -/
theorem compiled_size (h : compile pattern limit = .ok A) (hne : pattern ≠ "") :
    ∃ ts, Token.ofPattern pattern = .ok ts ∧
      A.stateCount = 2 * (Token.countOperands ts + Token.count .union ts + Token.count .star ts +
        Token.count .plus ts + Token.count .optional ts) ∧
      (A.transitionCount : Int) = 2 * Token.countOperands ts - 1 + 3 * Token.count .union ts +
        4 * Token.count .star ts + 3 * Token.count .plus ts + 3 * Token.count .optional ts ∧
      A.stateCount ≤ 2 * pattern.length ∧ A.transitionCount < 4 * pattern.length ∧
      (A.stateCount : Int) ≤ 2 * limit ∧ (A.transitionCount : Int) < 4 * limit := by
  obtain ⟨r, hmeans, hdepicts⟩ := exists_depicts_of_compile h hne
  cases hmeans with
  | empty => exact absurd rfl hne
  | @spelled _ ts _ hts hspells =>
    obtain ⟨tree, hvalid, rfl, rfl⟩ := hspells
    have hstates := tree.width_regex hvalid
    have harrows := tree.length_edges_regex hvalid 0
    have hlimit := length_le_of_compile h
    have htokens : tree.spelling.length ≤ pattern.length := by
      have := Token.length_le_of_lexFrom hts
      rwa [String.length_toList] at this
    have hstates_le := Token.total_le Kind.states_le tree.spelling
    have harrows_le := Token.total_le Kind.arrows_le tree.spelling
    rw [hdepicts.stateCount_eq, hdepicts.transitionCount_eq]
    have hstates_eq := Token.total_states tree.spelling
    have harrows_eq := Token.total_arrows tree.spelling
    exact ⟨_, hts, by omega, by omega, by omega, by omega, by omega, by omega⟩

/-- Five operands, one of them the empty string, a union and each quantifier once. -/
theorem compiled_size_quantifiers :
    ∃ A, compile "a(b|\\e)*c+d?" 100 = .ok A ∧ "a(b|\\e)*c+d?" ≠ "" ∧
      A.stateCount = 18 ∧ A.transitionCount = 22 := by
  have hne : "a(b|\\e)*c+d?" ≠ "" := by decide
  have hok : (compile "a(b|\\e)*c+d?" 100).toOption.isSome = true := by decide +kernel
  obtain ⟨A, hA⟩ := exists_eq_ok hok
  obtain ⟨ts, hts, hstates, htransitions, _⟩ := compiled_size hA hne
  obtain rfl := Except.ok.inj (hts.symm.trans rfl)
  exact ⟨A, hA, hne, hstates, Int.ofNat_inj.mp htransitions⟩

end RegexStepper

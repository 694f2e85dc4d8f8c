import RegexStepper.Proofs.Thompson.Sound

/-!
# Drafting lays expressions out

`Draft.Grown d₀ stack d`: the draft `d` is `d₀`, which has no fragments, with the expressions of a
stack laid out on top of it. A token in reverse Polish order does to the draft what it does to the
stack (`Grown.run_apply`), and it fails, changing nothing, exactly where the stack lacks operands
(`Grown.run_apply_fault`); so does a token list (`Grown.run_forM`, `Grown.run_forM_fault`).

Only the final states of fragments are flagged. The final state of a concatenation is not until the
end, which is why `flagged` is an implication.
-/

namespace RegexStepper

namespace Draft

/-- A flagged state from `base` on is the final state of a fragment. -/
def Flagged (base : Nat) (d : Draft) : Prop :=
  ∀ i, base ≤ i → d.accepting[i]? = some true → ∃ f ∈ d.fragments, f.final = i

/-- The draft `d` is `d₀` with the expressions of a stack laid out on it. -/
structure Grown (d₀ : Draft) (stack : List Regex) (d : Draft) : Prop where
  size_eq : d.accepting.size = d₀.accepting.size + Regex.stackWidth stack
  transitions_eq : d.transitions.toList =
    d₀.transitions.toList ++ Regex.stackEdges d₀.accepting.size stack
  fragments_eq : d.fragments = Regex.stackFragments d₀.accepting.size stack
  flagged : d.Flagged d₀.accepting.size

variable {d₀ d : Draft} {stack : List Regex} {r r₁ r₂ : Regex} {operator : Token}

/-- A draft without fragments is laid out by the empty stack. -/
theorem grown_nil (h : d₀.fragments = []) : Grown d₀ [] d₀ := by
  refine ⟨rfl, (List.append_nil _).symm, h, fun i hi hflag => ?_⟩
  obtain ⟨hlt, _⟩ := Array.getElem?_eq_some_iff.mp hflag
  omega

/-! ## Taking fragments -/

theorem length_stackFragments (base : Nat) (stack : List Regex) :
    (Regex.stackFragments base stack).length = stack.length := by
  induction stack with
  | nil => rfl
  | cons r stack ih => rw [Regex.stackFragments, List.length_cons, ih, List.length_cons]

/-- The fragments of a stack are in its block. -/
theorem lt_of_mem_stackFragments {base : Nat} {f : Fragment}
    (h : f ∈ Regex.stackFragments base stack) :
    f.start < base + Regex.stackWidth stack ∧ f.final < base + Regex.stackWidth stack := by
  induction stack with
  | nil => exact absurd h List.not_mem_nil
  | cons r stack ih =>
    rw [Regex.stackWidth]
    rcases List.mem_cons.mp h with rfl | h
    · have hspan := Regex.spans_fragment r (base + Regex.stackWidth stack)
      have hstart := hspan.start_within.2
      have hfinal := hspan.final_within.2
      omega
    · have := ih h
      omega

namespace Grown

theorem holds (h : Grown d₀ stack d) : ∀ f ∈ d.fragments, d.Holds f := by
  intro f hf
  rw [h.fragments_eq] at hf
  unfold Holds
  rw [h.size_eq]
  exact lt_of_mem_stackFragments hf

/-- Taking fragments that are there takes them off and leaves all else, but for flags. -/
theorem run_take (h : Grown d₀ stack d) (operator : Token) {count : Nat} (hpos : 0 < count)
    (hle : count ≤ stack.length) :
    ∃ d', (Drafting.take count operator).run d = .ok (d.fragments.take count).reverse d' ∧
      d'.accepting.size = d.accepting.size ∧ d'.transitions = d.transitions ∧
      d'.fragments = d.fragments.drop count ∧ d'.Flagged d₀.accepting.size := by
  have hlength : count ≤ d.fragments.length := by
    rw [h.fragments_eq, length_stackFragments]
    exact hle
  obtain ⟨d', hrun, htaken⟩ := exists_taken operator hpos hlength h.holds
  refine ⟨d', hrun, htaken.size_eq, htaken.transitions_eq, htaken.fragments_eq, ?_⟩
  intro i hi hflag
  obtain ⟨hd, hne⟩ := htaken.flags i hflag
  obtain ⟨f, hf, hfinal⟩ := h.flagged i hi hd
  rw [← List.take_append_drop count d.fragments] at hf
  rcases List.mem_append.mp hf with hf | hf
  · exact absurd hfinal.symm (hne f hf)
  · exact ⟨f, htaken.fragments_eq ▸ hf, hfinal⟩

/-! ## Adding states -/

end Grown

/-- Two new states, the second of them flagged and the final state of the topmost fragment. -/
theorem Flagged.grow_next {base : Nat} (h : d.Flagged base) (ts : List Transition) :
    Flagged base (d.grow [false, true] ts d.next) := by
  intro i hi hflag
  have hpush : (d.grow [false, true] ts d.next).accepting =
      (d.accepting.push false).push true := rfl
  simp only [hpush, Array.getElem?_push, Array.size_push] at hflag
  split at hflag
  · rename_i heq
    exact ⟨_, List.mem_cons_self, heq.symm⟩
  · split at hflag
    · cases hflag
    · obtain ⟨f, hf, hfinal⟩ := h i hi hflag
      exact ⟨f, List.mem_cons_of_mem _ hf, hfinal⟩

namespace Grown

/-- **An operand** is laid out on the stack. -/
theorem run_literal (h : Grown d₀ stack d) (symbol : Symbol) :
    ∃ d', (Drafting.literal symbol).run d = .ok () d' ∧
      Grown d₀ (Regex.ofSymbol? symbol :: stack) d' := by
  refine ⟨_, Drafting.run_literal symbol, ?_, ?_, ?_, h.flagged.grow_next _⟩
  · have hwidth : (Regex.ofSymbol? symbol).width = 2 := by cases symbol <;> rfl
    rw [size_grow, h.size_eq, Regex.stackWidth, hwidth, Nat.add_assoc]
    rfl
  · have hedges : ∀ base, (Regex.ofSymbol? symbol).edges base =
        [⟨base, (base + 1 : Nat), symbol⟩] := by cases symbol <;> exact fun _ => rfl
    rw [toList_transitions_grow, h.transitions_eq, Regex.stackEdges, hedges, next, h.size_eq,
      List.append_assoc]
  · have hfragment : ∀ base, (Regex.ofSymbol? symbol).fragment base = ⟨base, base + 1⟩ := by
      cases symbol <;> exact fun _ => rfl
    simp only [grow, next, h.fragments_eq, h.size_eq, Regex.stackFragments, hfragment]

/-- Where the block of the second expression of a stack ends. -/
theorem stackWidth_assoc (base : Nat) (r : Regex) (stack : List Regex) :
    base + Regex.stackWidth (r :: stack) = base + Regex.stackWidth stack + r.width :=
  (Nat.add_assoc _ _ _).symm

/-- Two expressions taken off a stack are the lower and the upper one. -/
theorem run_take_two (h : Grown d₀ (r₂ :: r₁ :: stack) d) (operator : Token) :
    ∃ d', (Drafting.take 2 operator).run d =
        .ok [r₁.fragment (d₀.accepting.size + Regex.stackWidth stack),
          r₂.fragment (d₀.accepting.size + Regex.stackWidth stack + r₁.width)] d' ∧
      d'.accepting.size = d.accepting.size ∧ d'.transitions = d.transitions ∧
      d'.fragments = Regex.stackFragments d₀.accepting.size stack ∧
      d'.Flagged d₀.accepting.size := by
  obtain ⟨d', hrun, hrest⟩ := h.run_take operator (show 0 < 2 by omega) (Nat.le_add_left 2 _)
  rw [h.fragments_eq, Regex.stackFragments, Regex.stackFragments, stackWidth_assoc] at hrun hrest
  exact ⟨d', hrun, hrest⟩

/-- One expression taken off a stack. -/
theorem run_take_one (h : Grown d₀ (r :: stack) d) (operator : Token) :
    ∃ d', (Drafting.take 1 operator).run d =
        .ok [r.fragment (d₀.accepting.size + Regex.stackWidth stack)] d' ∧
      d'.accepting.size = d.accepting.size ∧ d'.transitions = d.transitions ∧
      d'.fragments = Regex.stackFragments d₀.accepting.size stack ∧
      d'.Flagged d₀.accepting.size := by
  obtain ⟨d', hrun, hrest⟩ := h.run_take operator Nat.one_pos (Nat.le_add_left 1 _)
  rw [h.fragments_eq, Regex.stackFragments] at hrun hrest
  exact ⟨d', hrun, hrest⟩

/-- **A concatenation** joins the two topmost expressions. -/
theorem run_juxtapose (h : Grown d₀ (r₂ :: r₁ :: stack) d) (operator : Token) :
    ∃ d', (Drafting.juxtapose operator).run d = .ok () d' ∧
      Grown d₀ (.concat r₁ r₂ :: stack) d' := by
  obtain ⟨d', hrun, hsize, htransitions, hfragments, hflagged⟩ := h.run_take_two operator
  refine ⟨_, Drafting.run_juxtapose hrun, ?_, ?_, ?_, fun i hi hflag => ?_⟩
  · rw [size_grow, hsize, h.size_eq]
    simp only [List.length_nil, Regex.stackWidth, Regex.width]
    omega
  · simp only [toList_transitions_grow, htransitions, h.transitions_eq, Regex.stackEdges,
      Regex.edges, stackWidth_assoc, List.append_assoc]
  · rw [grow, hfragments]
    rfl
  · obtain ⟨f, hf, hfinal⟩ := hflagged i hi hflag
    exact ⟨f, List.mem_cons_of_mem _ hf, hfinal⟩

/-- **A choice** puts the two topmost expressions beside each other. -/
theorem run_alternate (h : Grown d₀ (r₂ :: r₁ :: stack) d) (operator : Token) :
    ∃ d', (Drafting.alternate operator).run d = .ok () d' ∧
      Grown d₀ (.union r₁ r₂ :: stack) d' := by
  obtain ⟨d', hrun, hsize, htransitions, hfragments, hflagged⟩ := h.run_take_two operator
  have hbase : d'.accepting.size =
      d₀.accepting.size + Regex.stackWidth stack + (r₁.width + r₂.width) := by
    rw [hsize, h.size_eq]
    simp only [Regex.stackWidth]
    omega
  refine ⟨_, Drafting.run_alternate hrun, ?_, ?_, ?_, hflagged.grow_next _⟩
  · simp only [size_grow, hbase, List.length_cons, List.length_nil, Regex.stackWidth, Regex.width]
    omega
  · simp only [toList_transitions_grow, htransitions, h.transitions_eq, Regex.stackEdges,
      Regex.edges, stackWidth_assoc, List.append_assoc, next, hbase, Regex.fragment]
  · simp only [grow, next, hfragments, hbase, Regex.stackFragments, Regex.fragment]

/-- **A quantifier** repeats the topmost expression. -/
theorem run_iterate (h : Grown d₀ (r :: stack) d) (operator : Token) (again bypass : Bool)
    {r' : Regex} (hwidth : r'.width = r.width + 2)
    (hfragment : ∀ base, r'.fragment base = ⟨base + r.width, base + r.width + 1⟩)
    (hedges : ∀ base, r'.edges base =
      r.edges base ++ Regex.repeatEdges again bypass (r.fragment base) (r'.fragment base)) :
    ∃ d', (Drafting.iterate operator again bypass).run d = .ok () d' ∧
      Grown d₀ (r' :: stack) d' := by
  obtain ⟨d', hrun, hsize, htransitions, hfragments, hflagged⟩ := h.run_take_one operator
  have hbase : d'.accepting.size = d₀.accepting.size + Regex.stackWidth stack + r.width := by
    rw [hsize, h.size_eq, Regex.stackWidth, Nat.add_assoc]
  refine ⟨_, Drafting.run_iterate hrun again bypass, ?_, ?_, ?_, hflagged.grow_next _⟩
  · simp only [size_grow, hbase, List.length_cons, List.length_nil, Regex.stackWidth, hwidth]
    omega
  · simp only [toList_transitions_grow, htransitions, h.transitions_eq, Regex.stackEdges, hedges,
      List.append_assoc, next, hbase, hfragment]
  · simp only [grow, next, hfragments, hbase, Regex.stackFragments, hfragment]

/-! ## Tokens -/

theorem length_fragments (h : Grown d₀ stack d) : d.fragments.length = stack.length := by
  rw [h.fragments_eq, length_stackFragments]

/-- **A token does to the draft what it does to the stack.** -/
theorem run_apply (h : Grown d₀ stack d) {t : Token} {stack' : List Regex}
    (hpush : ReversePolish.push? t stack = some stack') :
    ∃ d', (Drafting.apply t).run d = .ok () d' ∧ Grown d₀ stack' d' := by
  unfold ReversePolish.push? at hpush
  unfold Drafting.apply
  split at hpush
  · rename_i hkind
    rw [hkind, ← Option.some.inj hpush]
    exact h.run_literal t.value
  · rename_i hkind
    rw [hkind, ← Option.some.inj hpush]
    exact h.run_literal none
  · rename_i hkind
    rw [hkind, ← Option.some.inj hpush]
    exact h.run_juxtapose t
  · rename_i hkind
    rw [hkind, ← Option.some.inj hpush]
    exact h.run_alternate t
  · rename_i hkind
    rw [hkind, ← Option.some.inj hpush]
    exact h.run_iterate t true true rfl (fun _ => rfl) fun _ => rfl
  · rename_i hkind
    rw [hkind, ← Option.some.inj hpush]
    exact h.run_iterate t true false rfl (fun _ => rfl) fun _ => rfl
  · rename_i hkind
    rw [hkind, ← Option.some.inj hpush]
    exact h.run_iterate t false true rfl (fun _ => rfl) fun _ => rfl
  · cases hpush

/-- **A token that the stack refuses changes nothing** and is to blame. -/
theorem run_apply_fault (h : Grown d₀ stack d) {t : Token}
    (hpush : ReversePolish.push? t stack = none) :
    ∃ fault, (Drafting.apply t).run d = .error fault d ∧ t.Blamed fault := by
  refine Drafting.run_apply_fault fun n hn => ?_
  rw [h.length_fragments]
  exact ReversePolish.length_lt_of_push? hpush hn

/-- **A token list does to the draft what it does to the stack.** -/
theorem run_forM {ts : List Token} {stack' : List Regex} (h : Grown d₀ stack d)
    (hts : ReversePolish.evaluate? stack ts = some stack') :
    ∃ d', (forM ts Drafting.apply).run d = .ok () d' ∧ Grown d₀ stack' d' := by
  induction ts generalizing stack d with
  | nil =>
    cases hts
    exact ⟨d, rfl, h⟩
  | cons t ts ih =>
    obtain ⟨next, hpush, hrest⟩ := Option.bind_eq_some_iff.mp hts
    obtain ⟨d₁, hrun, h₁⟩ := h.run_apply hpush
    obtain ⟨d', hrun', h'⟩ := ih h₁ hrest
    refine ⟨d', ?_, h'⟩
    rw [List.forM_cons, EStateM.run_bind, hrun]
    exact hrun'

/-- A token list that fails on the stack fails on the draft, and one of its tokens is to blame. -/
theorem run_forM_fault {ts : List Token} (h : Grown d₀ stack d)
    (hts : ReversePolish.evaluate? stack ts = none) :
    ∃ fault d', (forM ts Drafting.apply).run d = .error fault d' ∧ ∃ t ∈ ts, t.Blamed fault := by
  induction ts generalizing stack d with
  | nil => cases hts
  | cons t ts ih =>
    cases hpush : ReversePolish.push? t stack with
    | none =>
      obtain ⟨fault, hrun, hblamed⟩ := h.run_apply_fault hpush
      refine ⟨fault, d, ?_, t, List.mem_cons_self, hblamed⟩
      rw [List.forM_cons, EStateM.run_bind, hrun]
    | some next =>
      rw [ReversePolish.evaluate?, hpush] at hts
      obtain ⟨d₁, hrun, h₁⟩ := h.run_apply hpush
      obtain ⟨fault, d', hrun', u, hu, hblamed⟩ := ih h₁ hts
      refine ⟨fault, d', ?_, u, List.mem_cons_of_mem t hu, hblamed⟩
      rw [List.forM_cons, EStateM.run_bind, hrun]
      exact hrun'

end Grown

end Draft

end RegexStepper

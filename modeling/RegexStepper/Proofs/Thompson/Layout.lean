import RegexStepper.Automaton.Path
import RegexStepper.Draft
import RegexStepper.Regex

/-!
# The automaton of an expression, written down

What drafting builds for an expression is a function of the expression and of the number `base` of
its first state: so many states (`Regex.width`), a start and a final one (`Regex.fragment`), and
these transitions in this order (`Regex.edges`). The states of a subexpression come before those of
the expression around it, and two neighbours take neighbouring blocks, so a block is an interval.

A stack of expressions, top first, is laid out from the bottom up (`Regex.stackWidth`,
`Regex.stackFragments`, `Regex.stackEdges`).

Headlines: the start and the final state of an expression are two different states of its block
(`spans_fragment`), and its transitions stay inside (`stayWithin_edges`).
-/

namespace RegexStepper

namespace Regex

/-- How many states an expression has. -/
def width : Regex → Nat
  | epsilon | symbol _ => 2
  | concat r₁ r₂ => r₁.width + r₂.width
  | union r₁ r₂ => r₁.width + r₂.width + 2
  | star r | plus r | optional r => r.width + 2

/-- The start and the final state of an expression. -/
def fragment (base : Nat) : Regex → Fragment
  | epsilon | symbol _ => ⟨base, base + 1⟩
  | concat r₁ r₂ => ⟨(r₁.fragment base).start, (r₂.fragment (base + r₁.width)).final⟩
  | union r₁ r₂ => ⟨base + (r₁.width + r₂.width), base + (r₁.width + r₂.width) + 1⟩
  | star r | plus r | optional r => ⟨base + r.width, base + r.width + 1⟩

/-- The transitions that put the fragments `f` and `g` beside each other, between the ends of
`outer`. -/
def unionEdges (f g outer : Fragment) : List Transition :=
  [⟨outer.start, f.start, none⟩, ⟨outer.start, g.start, none⟩, ⟨f.final, outer.final, none⟩,
    ⟨g.final, outer.final, none⟩]

/-- The transitions that put the fragment `f` between the ends of `outer`, with an arrow back if
`again` and one past it if `bypass`. -/
def repeatEdges (again bypass : Bool) (f outer : Fragment) : List Transition :=
  [⟨outer.start, f.start, none⟩, ⟨f.final, outer.final, none⟩] ++
    (if again then [⟨f.final, f.start, none⟩] else []) ++
    (if bypass then [⟨outer.start, outer.final, none⟩] else [])

/-- The transitions of an expression, in the order in which they are made. -/
def edges (base : Nat) : Regex → List Transition
  | epsilon => [⟨base, (base + 1 : Nat), none⟩]
  | symbol s => [⟨base, (base + 1 : Nat), some s⟩]
  | concat r₁ r₂ =>
    r₁.edges base ++ r₂.edges (base + r₁.width) ++
      [⟨(r₁.fragment base).final, (r₂.fragment (base + r₁.width)).start, none⟩]
  | union r₁ r₂ =>
    r₁.edges base ++ r₂.edges (base + r₁.width) ++
      unionEdges (r₁.fragment base) (r₂.fragment (base + r₁.width))
        ((union r₁ r₂).fragment base)
  | star r => r.edges base ++ repeatEdges true true (r.fragment base) ((star r).fragment base)
  | plus r => r.edges base ++ repeatEdges true false (r.fragment base) ((plus r).fragment base)
  | optional r =>
    r.edges base ++ repeatEdges false true (r.fragment base) ((optional r).fragment base)

/-- The symbols written in an expression. -/
def letters : Regex → List String
  | epsilon => []
  | symbol s => [s]
  | concat r₁ r₂ | union r₁ r₂ => r₁.letters ++ r₂.letters
  | star r | plus r | optional r => r.letters

/-! ## Stacks -/

/-- How many states the expressions of a stack have. -/
def stackWidth : List Regex → Nat
  | [] => 0
  | r :: below => stackWidth below + r.width

/-- The fragments of a stack, top first. -/
def stackFragments (base : Nat) : List Regex → List Fragment
  | [] => []
  | r :: below => r.fragment (base + stackWidth below) :: stackFragments base below

/-- The transitions of a stack, those of the bottom first. -/
def stackEdges (base : Nat) : List Regex → List Transition
  | [] => []
  | r :: below => stackEdges base below ++ r.edges (base + stackWidth below)

/-! ## Blocks -/

/-- An id is one of the block of `width` ids from `base`. -/
def Within (base width : Nat) (i : Int) : Prop :=
  (base : Int) ≤ i ∧ i < (base + width : Nat)

/-- The two ends of a fragment are in a block, and they differ. -/
structure Spans (base width : Nat) (f : Fragment) : Prop where
  start_within : Within base width f.start
  final_within : Within base width f.final
  start_ne_final : f.start ≠ f.final

/-- The first of two neighbouring blocks is part of the block that they cover. -/
theorem Within.left {base width width' : Nat} {i : Int} (h : Within base width i) :
    Within base (width + width') i := by
  obtain ⟨hle, hlt⟩ := h
  exact ⟨hle, by omega⟩

/-- So is the second. -/
theorem Within.right {base width width' : Nat} {i : Int} (h : Within (base + width) width' i) :
    Within base (width + width') i := by
  obtain ⟨hle, hlt⟩ := h
  exact ⟨by omega, by omega⟩

/-- Two neighbouring blocks have nothing in common. -/
theorem Within.disjoint {base width width' : Nat} {i : Int} (h : Within base width i) :
    ¬ Within (base + width) width' i := by
  intro h'
  have := h.2
  have := h'.1
  omega

theorem Within.ne_of_neighbours {base width width' : Nat} {i j : Int} (hi : Within base width i)
    (hj : Within (base + width) width' j) : i ≠ j :=
  fun heq => hi.disjoint (heq ▸ hj)

/-- Two neighbouring blocks make up the block that they cover. -/
theorem Within.split {base width width' : Nat} {i : Int} (h : Within base (width + width') i) :
    Within base width i ∨ Within (base + width) width' i := by
  obtain ⟨hle, hlt⟩ := h
  by_cases hin : i < (base + width : Nat)
  · exact Or.inl ⟨hle, hin⟩
  · exact Or.inr ⟨by omega, by omega⟩

/-- The states of a widened block are those of the old one and its two new ends. -/
theorem Within.split_outer {base width : Nat} {i : Int} (h : Within base (width + 2) i) :
    Within base width i ∨ i = (base + width : Nat) ∨ i = (base + width + 1 : Nat) := by
  rcases h.split with h | ⟨hle, hlt⟩
  · exact Or.inl h
  · omega

/-- The two ends made around a block are in the block that they widen, and not in the old one. -/
theorem spans_outer (base width : Nat) :
    Spans base (width + 2) ⟨base + width, base + width + 1⟩ :=
  ⟨⟨by simp only; omega, by simp only; omega⟩, ⟨by simp only; omega, by simp only; omega⟩,
    by simp only; omega⟩

/-- They are not in the old block. -/
theorem Within.ne_outer {base width : Nat} {i : Int} (h : Within base width i) :
    i ≠ (base + width : Nat) ∧ i ≠ (base + width + 1 : Nat) := by
  have := h.2
  exact ⟨by omega, by omega⟩

/-- **The ends of an expression are two states of its block.** -/
theorem spans_fragment (r : Regex) (base : Nat) : Spans base r.width (r.fragment base) := by
  induction r generalizing base with
  | epsilon => exact spans_outer base 0
  | symbol s => exact spans_outer base 0
  | concat r₁ r₂ ih₁ ih₂ =>
    have h₁ := ih₁ base
    have h₂ := ih₂ (base + r₁.width)
    refine ⟨h₁.start_within.left, h₂.final_within.right, fun heq => ?_⟩
    exact h₁.start_within.disjoint (heq ▸ h₂.final_within)
  | union r₁ r₂ => exact spans_outer base (r₁.width + r₂.width)
  | star r => exact spans_outer base r.width
  | plus r => exact spans_outer base r.width
  | optional r => exact spans_outer base r.width

/-- The transitions of a list stay in a block. -/
def StayWithin (base width : Nat) (ts : List Transition) : Prop :=
  ∀ t ∈ ts, Within base width t.source ∧ Within base width t.target

theorem StayWithin.append {base width : Nat} {ts us : List Transition}
    (hts : StayWithin base width ts) (hus : StayWithin base width us) :
    StayWithin base width (ts ++ us) := by
  intro t ht
  rcases List.mem_append.mp ht with ht | ht
  · exact hts t ht
  · exact hus t ht

theorem StayWithin.left {base width width' : Nat} {ts : List Transition}
    (h : StayWithin base width ts) : StayWithin base (width + width') ts :=
  fun t ht => ⟨(h t ht).1.left, (h t ht).2.left⟩

theorem StayWithin.right {base width width' : Nat} {ts : List Transition}
    (h : StayWithin (base + width) width' ts) : StayWithin base (width + width') ts :=
  fun t ht => ⟨(h t ht).1.right, (h t ht).2.right⟩

theorem mem_unionEdges {f g outer : Fragment} {t : Transition} :
    t ∈ unionEdges f g outer ↔
      t = ⟨outer.start, f.start, none⟩ ∨ t = ⟨outer.start, g.start, none⟩ ∨
        t = ⟨f.final, outer.final, none⟩ ∨ t = ⟨g.final, outer.final, none⟩ := by
  simp only [unionEdges, List.mem_cons, List.not_mem_nil, or_false]

theorem mem_repeatEdges {again bypass : Bool} {f outer : Fragment} {t : Transition} :
    t ∈ repeatEdges again bypass f outer ↔
      t = ⟨outer.start, f.start, none⟩ ∨ t = ⟨f.final, outer.final, none⟩ ∨
        again = true ∧ t = ⟨f.final, f.start, none⟩ ∨
        bypass = true ∧ t = ⟨outer.start, outer.final, none⟩ := by
  cases again <;> cases bypass <;> simp [repeatEdges]

/-- Repeating a fragment of a block stays in the block widened by the two new ends. -/
theorem stayWithin_repeat {base width : Nat} {ts : List Transition} {f : Fragment}
    (again bypass : Bool) (hts : StayWithin base width ts) (hf : Spans base width f) :
    StayWithin base (width + 2)
      (ts ++ repeatEdges again bypass f ⟨base + width, base + width + 1⟩) := by
  have houter := spans_outer base width
  refine hts.left.append fun t ht => ?_
  rcases mem_repeatEdges.mp ht with rfl | rfl | ⟨_, rfl⟩ | ⟨_, rfl⟩
  · exact ⟨houter.start_within, hf.start_within.left⟩
  · exact ⟨hf.final_within.left, houter.final_within⟩
  · exact ⟨hf.final_within.left, hf.start_within.left⟩
  · exact ⟨houter.start_within, houter.final_within⟩

/-- **The transitions of an expression stay in its block.** -/
theorem stayWithin_edges (r : Regex) (base : Nat) : StayWithin base r.width (r.edges base) := by
  induction r generalizing base with
  | epsilon | symbol s =>
    intro t ht
    obtain rfl := List.mem_singleton.mp ht
    exact ⟨(spans_outer base 0).start_within, (spans_outer base 0).final_within⟩
  | concat r₁ r₂ ih₁ ih₂ =>
    have h₁ := spans_fragment r₁ base
    have h₂ := spans_fragment r₂ (base + r₁.width)
    refine ((ih₁ base).left.append (ih₂ (base + r₁.width)).right).append fun t ht => ?_
    obtain rfl := List.mem_singleton.mp ht
    exact ⟨h₁.final_within.left, h₂.start_within.right⟩
  | union r₁ r₂ ih₁ ih₂ =>
    have h₁ := spans_fragment r₁ base
    have h₂ := spans_fragment r₂ (base + r₁.width)
    have houter := spans_outer base (r₁.width + r₂.width)
    refine ((ih₁ base).left.append (ih₂ (base + r₁.width)).right).left.append fun t ht => ?_
    rcases mem_unionEdges.mp ht with rfl | rfl | rfl | rfl
    · exact ⟨houter.start_within, h₁.start_within.left.left⟩
    · exact ⟨houter.start_within, h₂.start_within.right.left⟩
    · exact ⟨h₁.final_within.left.left, houter.final_within⟩
    · exact ⟨h₂.final_within.right.left, houter.final_within⟩
  | star r ih => exact stayWithin_repeat true true (ih base) (spans_fragment r base)
  | plus r ih => exact stayWithin_repeat true false (ih base) (spans_fragment r base)
  | optional r ih => exact stayWithin_repeat false true (ih base) (spans_fragment r base)

end Regex

end RegexStepper

import RegexStepper.Proofs.Thompson.Layout

/-!
# Sound drafts

A draft is `Draft.Sound` if every number in it is one of its states: the ends of its fragments and
those of its transitions. Whatever it is asked, it stays sound, since a token does one of two things
to it:

* `Drafting.run_apply_fault`: it fails and changes nothing, if its kind has no place in reverse
  Polish order or takes more fragments than there are (`Draft.Refuses`);
* **`Draft.Sound.run_apply`**: else it puts one fragment in the place of those that it takes.

Once its fragments are taken, a construct only adds to the draft (`Draft.grow`).
-/

namespace RegexStepper

/-- How many fragments a token of a kind takes, if it has a place in reverse Polish order. -/
def Kind.arity? : Kind → Option Nat
  | literal | epsilon => some 0
  | star | plus | optional => some 1
  | concat | union => some 2
  | opening | closing | other _ => none

/-- A token that a stack of expressions refuses takes more than there are. -/
theorem ReversePolish.length_lt_of_push? {t : Token} {stack : List Regex} {n : Nat}
    (h : push? t stack = none) (hn : t.kind.arity? = some n) : stack.length < n := by
  unfold push? at h
  cases hkind : t.kind <;> rw [hkind] at h hn <;> cases hn
  case literal | epsilon => cases h
  case star | plus | optional =>
    rcases stack with _ | ⟨r, below⟩
    · exact Nat.one_pos
    · cases h
  case concat | union =>
    rcases stack with _ | ⟨r₂, _ | ⟨r₁, below⟩⟩
    · exact Nat.two_pos
    · exact Nat.one_lt_two
    · cases h

/-! ## What constructs add -/

namespace Draft

/-- The draft with more states, more transitions and one more fragment. -/
def grow (d : Draft) (flags : List Bool) (ts : List Transition) (f : Fragment) : Draft :=
  ⟨d.accepting ++ flags, d.transitions ++ ts, f :: d.fragments⟩

/-- The fragment between the next two states. -/
def next (d : Draft) : Fragment :=
  ⟨d.accepting.size, d.accepting.size + 1⟩

variable {d : Draft} {flags : List Bool} {ts : List Transition} {f : Fragment}

theorem size_grow : (d.grow flags ts f).accepting.size = d.accepting.size + flags.length := by
  rw [← Array.length_toList, grow, Array.toList_appendList, List.length_append,
    Array.length_toList]

theorem toList_transitions_grow :
    (d.grow flags ts f).transitions.toList = d.transitions.toList ++ ts :=
  Array.toList_appendList

end Draft

namespace Drafting

variable {d d' : Draft} {operator t : Token} {f g : Fragment}

theorem run_literal (symbol : Symbol) : (literal symbol).run d =
    .ok () (d.grow [false, true] [⟨d.next.start, d.next.final, symbol⟩] d.next) := by
  simp only [literal, newState, connect, push, EStateM.run_bind, EStateM.run_modifyGet,
    EStateM.run_modify, Array.size_push]
  rfl

theorem run_juxtapose (h : (take 2 operator).run d = .ok [f, g] d') :
    (juxtapose operator).run d =
      .ok () (d'.grow [] [⟨f.final, g.start, none⟩] ⟨f.start, g.final⟩) := by
  simp only [juxtapose, connect, push, EStateM.run_bind, h, EStateM.run_modify]
  rfl

theorem run_alternate (h : (take 2 operator).run d = .ok [f, g] d') :
    (alternate operator).run d =
      .ok () (d'.grow [false, true] (Regex.unionEdges f g d'.next) d'.next) := by
  simp only [alternate, newState, connect, push, EStateM.run_bind, h, EStateM.run_modifyGet,
    EStateM.run_modify, Array.size_push]
  rfl

theorem run_iterate (h : (take 1 operator).run d = .ok [f] d') (again bypass : Bool) :
    (iterate operator again bypass).run d =
      .ok () (d'.grow [false, true] (Regex.repeatEdges again bypass f d'.next) d'.next) := by
  cases again <;> cases bypass <;>
    simp only [iterate, newState, connect, push, EStateM.run_bind, h, EStateM.run_modifyGet,
      EStateM.run_modify, Array.size_push] <;>
    rfl

/-- **A token that lacks operands, or that no list in reverse Polish order holds, changes nothing**
and is to blame. -/
theorem run_apply_fault (h : ∀ n, t.kind.arity? = some n → d.fragments.length < n) :
    ∃ fault, (apply t).run d = .error fault d ∧ t.Blamed fault := by
  have hunexpected : ∃ fault, (do
      let text ← attempt t.text
      attempt (refuse (.unexpectedToken text) t.position) : Drafting Unit).run d =
        .error fault d ∧ t.Blamed fault := by
    cases htext : t.text with
    | error fault => exact ⟨fault, rfl, .unprintable htext⟩
    | ok text => exact ⟨_, rfl, .unexpected htext⟩
  unfold apply
  cases hkind : t.kind with
  | literal | epsilon => exact absurd (h 0 (by rw [hkind]; rfl)) (Nat.not_lt_zero _)
  | concat =>
    have hshort := h 2 (by rw [hkind]; rfl)
    obtain ⟨fault, hrun, hblamed⟩ := @run_take_fault d t 2 (by omega)
    exact ⟨fault, by simp only [juxtapose, EStateM.run_bind, hrun], hblamed⟩
  | union =>
    have hshort := h 2 (by rw [hkind]; rfl)
    obtain ⟨fault, hrun, hblamed⟩ := @run_take_fault d t 2 (by omega)
    exact ⟨fault, by simp only [alternate, EStateM.run_bind, hrun], hblamed⟩
  | star | plus | optional =>
    have hshort := h 1 (by rw [hkind]; rfl)
    obtain ⟨fault, hrun, hblamed⟩ := @run_take_fault d t 1 (by omega)
    exact ⟨fault, by simp only [iterate, EStateM.run_bind, hrun], hblamed⟩
  | opening => exact hunexpected
  | closing => exact hunexpected
  | other name => exact hunexpected

end Drafting

/-! ## Soundness -/

namespace Draft

open Regex (Within StayWithin mem_unionEdges mem_repeatEdges)

/-- The kind of `t` has no place in reverse Polish order, or it takes more fragments than there
are. -/
def Refuses (d : Draft) (t : Token) : Prop :=
  t.kind.arity? = none ∨ ∃ n, t.kind.arity? = some n ∧ d.fragments.length < n

theorem refuses_iff {d : Draft} {t : Token} :
    d.Refuses t ↔ ∀ n, t.kind.arity? = some n → d.fragments.length < n := by
  unfold Refuses
  cases t.kind.arity? <;> simp

/-- Every number in the draft is one of its states. -/
structure Sound (d : Draft) : Prop where
  holds : ∀ f ∈ d.fragments, d.Holds f
  stay : StayWithin 0 d.accepting.size d.transitions.toList

variable {d : Draft}

theorem sound_empty : empty.Sound :=
  ⟨fun _ hf => absurd hf List.not_mem_nil, fun _ ht => absurd ht List.not_mem_nil⟩

theorem Holds.mono {d' : Draft} {f : Fragment} (h : d.Holds f)
    (hle : d.accepting.size ≤ d'.accepting.size) : d'.Holds f :=
  ⟨Nat.lt_of_lt_of_le h.1 hle, Nat.lt_of_lt_of_le h.2 hle⟩

/-- More states and fewer fragments keep a draft sound, whatever the flags. -/
theorem Sound.mono {d' : Draft} (h : d.Sound) (hsize : d.accepting.size ≤ d'.accepting.size)
    (htransitions : d'.transitions = d.transitions) (hfragments : d'.fragments ⊆ d.fragments) :
    d'.Sound := by
  refine ⟨fun f hf => (h.holds f (hfragments hf)).mono hsize, ?_⟩
  obtain ⟨count, hcount⟩ := Nat.exists_eq_add_of_le hsize
  rw [htransitions, hcount]
  exact h.stay.left

/-! ### Taking fragments -/

theorem getElem?_cleared {f : Fragment} {i : Nat} (h : (d.cleared f).accepting[i]? = some true) :
    d.accepting[i]? = some true ∧ i ≠ f.final := by
  simp only [cleared, Array.getElem?_setIfInBounds] at h
  split at h
  · split at h <;> cases h
  · rename_i hfinal
    refine ⟨?_, fun heq => hfinal heq.symm⟩
    split at h
    · split at h <;> cases h
    · exact h

/-- The draft `d'` is `d` without its topmost `count` fragments, and no final state of theirs is
flagged any more. -/
structure Taken (d : Draft) (count : Nat) (d' : Draft) : Prop where
  size_eq : d'.accepting.size = d.accepting.size
  transitions_eq : d'.transitions = d.transitions
  fragments_eq : d'.fragments = d.fragments.drop count
  flags : ∀ i : Nat, d'.accepting[i]? = some true →
    d.accepting[i]? = some true ∧ ∀ f ∈ d.fragments.take count, i ≠ f.final

/-- Clearing fragments leaves the rest of the draft, and no flag on a final state of theirs. -/
theorem foldl_cleared (fs : List Fragment) (d : Draft) :
    (fs.foldl cleared d).accepting.size = d.accepting.size ∧
      (fs.foldl cleared d).transitions = d.transitions ∧
      (fs.foldl cleared d).fragments = d.fragments ∧
      ∀ i : Nat, (fs.foldl cleared d).accepting[i]? = some true →
        d.accepting[i]? = some true ∧ ∀ f ∈ fs, i ≠ f.final := by
  induction fs generalizing d with
  | nil => exact ⟨rfl, rfl, rfl, fun i h => ⟨h, fun f hf => absurd hf List.not_mem_nil⟩⟩
  | cons f fs ih =>
    obtain ⟨hsize, htransitions, hfragments, hflags⟩ := ih (d.cleared f)
    refine ⟨?_, htransitions, hfragments, fun i h => ?_⟩
    · rw [List.foldl_cons, hsize]
      simp only [cleared, Array.size_setIfInBounds]
    · obtain ⟨hcleared, hrest⟩ := hflags i h
      obtain ⟨hd, hne⟩ := getElem?_cleared hcleared
      refine ⟨hd, fun g hg => ?_⟩
      rcases List.mem_cons.mp hg with rfl | hg
      · exact hne
      · exact hrest g hg

/-- Fragments that are there, with ends that are, can be taken. -/
theorem exists_taken (operator : Token) {count : Nat} (hpos : 0 < count)
    (hle : count ≤ d.fragments.length) (h : ∀ f ∈ d.fragments, d.Holds f) :
    ∃ d', (Drafting.take count operator).run d = .ok (d.fragments.take count).reverse d' ∧
      d.Taken count d' := by
  obtain ⟨hsize, htransitions, hfragments, hflags⟩ :=
    foldl_cleared (d.fragments.take count).reverse { d with fragments := d.fragments.drop count }
  refine ⟨_, Drafting.run_take hpos hle h, hsize, htransitions, hfragments, fun i hi => ?_⟩
  obtain ⟨hd, hne⟩ := hflags i hi
  exact ⟨hd, fun f hf => hne f (List.mem_reverse.mpr hf)⟩

namespace Sound

/-- From a sound draft fragments that are there can be taken, and it stays sound. -/
theorem run_take (h : d.Sound) (operator : Token) {count : Nat} (hpos : 0 < count)
    (hle : count ≤ d.fragments.length) :
    ∃ d', (Drafting.take count operator).run d = .ok (d.fragments.take count).reverse d' ∧
      d'.Sound ∧ d'.fragments = d.fragments.drop count ∧
      ∀ f ∈ d.fragments.take count, d'.Holds f := by
  obtain ⟨d', hrun, htaken⟩ := exists_taken operator hpos hle h.holds
  have hsize := Nat.le_of_eq htaken.size_eq.symm
  refine ⟨d', hrun, h.mono hsize htaken.transitions_eq ?_, htaken.fragments_eq, fun f hf => ?_⟩
  · rw [htaken.fragments_eq]
    exact List.drop_subset count d.fragments
  · exact (h.holds f (List.mem_of_mem_take hf)).mono hsize

/-- Two fragments that are there are the two topmost ones. -/
theorem run_take_two (h : d.Sound) (operator : Token) (hle : 2 ≤ d.fragments.length) :
    ∃ f g d', (Drafting.take 2 operator).run d = .ok [f, g] d' ∧ d'.Sound ∧
      d'.fragments.length + 2 = d.fragments.length ∧ d'.Holds f ∧ d'.Holds g := by
  obtain ⟨d', hrun, hd', hfragments, hholds⟩ := h.run_take operator Nat.two_pos hle
  match hd : d.fragments, hle with
  | g :: f :: below, _ =>
    rw [hd] at hrun hfragments hholds
    refine ⟨f, g, d', hrun, hd', ?_, hholds f (by simp), hholds g (by simp)⟩
    rw [hfragments]
    rfl

/-- One fragment that is there is the topmost one. -/
theorem run_take_one (h : d.Sound) (operator : Token) (hle : 1 ≤ d.fragments.length) :
    ∃ f d', (Drafting.take 1 operator).run d = .ok [f] d' ∧ d'.Sound ∧
      d'.fragments.length + 1 = d.fragments.length ∧ d'.Holds f := by
  obtain ⟨d', hrun, hd', hfragments, hholds⟩ := h.run_take operator Nat.one_pos hle
  match hd : d.fragments, hle with
  | f :: below, _ =>
    rw [hd] at hrun hfragments hholds
    refine ⟨f, d', hrun, hd', ?_, hholds f (by simp)⟩
    rw [hfragments]
    rfl

/-! ### Adding to the draft -/

theorem within_zero {n i : Nat} (h : i < n) : Within 0 n i :=
  ⟨Int.natCast_nonneg i, by omega⟩

theorem within_of_holds {f : Fragment} (h : d.Holds f) (count : Nat) :
    Within 0 (d.accepting.size + count) f.start ∧ Within 0 (d.accepting.size + count) f.final :=
  ⟨within_zero (Nat.lt_add_right count h.1), within_zero (Nat.lt_add_right count h.2)⟩

theorem within_next :
    Within 0 (d.accepting.size + 2) d.next.start ∧ Within 0 (d.accepting.size + 2) d.next.final :=
  ⟨within_zero (Nat.lt_add_of_pos_right Nat.two_pos), within_zero (Nat.lt_succ_self _)⟩

/-- What is added between states that are there keeps the draft sound. -/
theorem grow (h : d.Sound) {flags : List Bool} {ts : List Transition} {f : Fragment}
    (hts : StayWithin 0 (d.accepting.size + flags.length) ts)
    (hf : f.start < d.accepting.size + flags.length ∧
      f.final < d.accepting.size + flags.length) : (d.grow flags ts f).Sound := by
  refine ⟨fun g hg => ?_, ?_⟩
  · rcases List.mem_cons.mp hg with rfl | hg
    · unfold Holds
      rwa [size_grow]
    · exact (h.holds g hg).mono (size_grow ▸ Nat.le_add_right _ _)
  · rw [size_grow, toList_transitions_grow]
    exact h.stay.left.append hts

/-- So do transitions around the next two states. -/
theorem grow_next (h : d.Sound) {ts : List Transition}
    (hts : StayWithin 0 (d.accepting.size + 2) ts) :
    (d.grow [false, true] ts d.next).Sound :=
  h.grow hts ⟨Nat.lt_add_of_pos_right Nat.two_pos, Nat.lt_succ_self _⟩

theorem run_literal (h : d.Sound) (symbol : Symbol) :
    ∃ d', (Drafting.literal symbol).run d = .ok () d' ∧ d'.Sound ∧
      d'.fragments.length = d.fragments.length + 1 := by
  refine ⟨_, Drafting.run_literal symbol, h.grow_next fun t ht => ?_, rfl⟩
  obtain rfl := List.mem_singleton.mp ht
  exact within_next

theorem run_juxtapose (h : d.Sound) (operator : Token) (hle : 2 ≤ d.fragments.length) :
    ∃ d', (Drafting.juxtapose operator).run d = .ok () d' ∧ d'.Sound ∧
      d'.fragments.length + 2 = d.fragments.length + 1 := by
  obtain ⟨f, g, d', hrun, hd', hlength, hf, hg⟩ := h.run_take_two operator hle
  refine ⟨_, Drafting.run_juxtapose hrun, hd'.grow (fun t ht => ?_) ⟨hf.1, hg.2⟩,
    congrArg (· + 1) hlength⟩
  obtain rfl := List.mem_singleton.mp ht
  exact ⟨within_zero hf.2, within_zero hg.1⟩

theorem run_alternate (h : d.Sound) (operator : Token) (hle : 2 ≤ d.fragments.length) :
    ∃ d', (Drafting.alternate operator).run d = .ok () d' ∧ d'.Sound ∧
      d'.fragments.length + 2 = d.fragments.length + 1 := by
  obtain ⟨f, g, d', hrun, hd', hlength, hf, hg⟩ := h.run_take_two operator hle
  refine ⟨_, Drafting.run_alternate hrun, hd'.grow_next fun t ht => ?_, congrArg (· + 1) hlength⟩
  obtain ⟨hstart, hfinal⟩ := @within_next d'
  obtain ⟨hfstart, hffinal⟩ := within_of_holds hf 2
  obtain ⟨hgstart, hgfinal⟩ := within_of_holds hg 2
  rcases mem_unionEdges.mp ht with rfl | rfl | rfl | rfl
  · exact ⟨hstart, hfstart⟩
  · exact ⟨hstart, hgstart⟩
  · exact ⟨hffinal, hfinal⟩
  · exact ⟨hgfinal, hfinal⟩

theorem run_iterate (h : d.Sound) (operator : Token) (again bypass : Bool)
    (hle : 1 ≤ d.fragments.length) :
    ∃ d', (Drafting.iterate operator again bypass).run d = .ok () d' ∧ d'.Sound ∧
      d'.fragments.length + 1 = d.fragments.length + 1 := by
  obtain ⟨f, d', hrun, hd', hlength, hf⟩ := h.run_take_one operator hle
  refine ⟨_, Drafting.run_iterate hrun again bypass, hd'.grow_next fun t ht => ?_,
    congrArg (· + 1) hlength⟩
  obtain ⟨hstart, hfinal⟩ := @within_next d'
  obtain ⟨hfstart, hffinal⟩ := within_of_holds hf 2
  rcases mem_repeatEdges.mp ht with rfl | rfl | ⟨_, rfl⟩ | ⟨_, rfl⟩
  · exact ⟨hstart, hfstart⟩
  · exact ⟨hffinal, hfinal⟩
  · exact ⟨hffinal, hfstart⟩
  · exact ⟨hstart, hfinal⟩

/-- **A token that is not refused** puts one fragment in the place of those that it takes, and the
draft stays sound. -/
theorem run_apply (h : d.Sound) {t : Token} {n : Nat} (hn : t.kind.arity? = some n)
    (hle : n ≤ d.fragments.length) :
    ∃ d', (Drafting.apply t).run d = .ok () d' ∧ d'.Sound ∧
      d'.fragments.length + n = d.fragments.length + 1 := by
  unfold Drafting.apply
  cases hkind : t.kind <;> rw [hkind] at hn <;> cases hn
  case literal => exact h.run_literal t.value
  case epsilon => exact h.run_literal none
  case star => exact h.run_iterate t true true hle
  case plus => exact h.run_iterate t true false hle
  case optional => exact h.run_iterate t false true hle
  case concat => exact h.run_juxtapose t hle
  case union => exact h.run_alternate t hle

/-- **A sound draft refuses a token or applies it**, and there is nothing in between. -/
theorem apply_cases (h : d.Sound) (t : Token) :
    (d.Refuses t ∧ ∃ fault, (Drafting.apply t).run d = .error fault d ∧ t.Blamed fault) ∨
      ¬ d.Refuses t ∧ ∃ n d', t.kind.arity? = some n ∧
        (Drafting.apply t).run d = .ok () d' ∧ d'.Sound ∧
          d'.fragments.length + n = d.fragments.length + 1 := by
  by_cases hrefuses : d.Refuses t
  · exact Or.inl ⟨hrefuses, Drafting.run_apply_fault (refuses_iff.mp hrefuses)⟩
  · obtain ⟨n, hn, hle⟩ : ∃ n, t.kind.arity? = some n ∧ n ≤ d.fragments.length := by
      simpa [refuses_iff] using hrefuses
    obtain ⟨d', hrun, hd', hlength⟩ := h.run_apply hn hle
    exact Or.inr ⟨hrefuses, n, d', hn, hrun, hd', hlength⟩

end Sound

end Draft

end RegexStepper

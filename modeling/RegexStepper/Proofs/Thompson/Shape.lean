import Mathlib.Data.List.Nodup
import RegexStepper.Proofs.Thompson.Language

/-!
# The shape of the automaton of an expression

`Tidy ts`: no transition stands twice in the list, at most two leave a state, and one on a symbol is
the only one to leave its state. Lists whose transitions leave different states are tidy together
(`Tidy.append`), and each construct adds transitions that leave its new start state and final states
that nothing has left so far.

So it is carried along that nothing leaves the final state; and since a start state may come to lie
inside, that nothing enters the start state (`Shaped`). Each construct keeps this (`shaped_concat`,
`shaped_union`, `shaped_repeat`). Headline: **`shaped_edges`**, so it holds of every expression.
-/

namespace RegexStepper

/-! ## Transition lists -/

/-- No transition stands there twice, at most two leave a state, and one on a symbol leaves its
state alone. -/
structure Tidy (ts : List Transition) : Prop where
  nodup : ts.Nodup
  leaving_le_two : ∀ i, ts.countP (·.source == i) ≤ 2
  symbol_alone : ∀ t ∈ ts, t.symbol ≠ none → ∀ u ∈ ts, u.source = t.source → u = t

/-- A tidy list that does not enter its start nor leave its final state. -/
structure Shaped (ts : List Transition) (start final : Int) : Prop extends Tidy ts where
  target_ne_start : ∀ t ∈ ts, t.target ≠ start
  source_ne_final : ∀ t ∈ ts, t.source ≠ final

section

variable {ts us : List Transition} {start final : Int} {f : Int → Int}

/-- **Lists that leave different states are tidy together.** -/
theorem Tidy.append (hts : Tidy ts) (hus : Tidy us)
    (hapart : ∀ t ∈ ts, ∀ u ∈ us, t.source ≠ u.source) : Tidy (ts ++ us) := by
  refine ⟨List.nodup_append.mpr ⟨hts.nodup, hus.nodup, ?_⟩, fun i => ?_, ?_⟩
  · intro t ht u hu heq
    exact hapart t ht u hu (congrArg Transition.source heq)
  -- what leaves `i` is all in the one list or all in the other
  · rw [List.countP_append]
    by_cases hi : ∃ t ∈ ts, t.source = i
    · obtain ⟨t, ht, rfl⟩ := hi
      have hnone : us.countP (·.source == t.source) = 0 :=
        List.countP_eq_zero.mpr fun u hu h => hapart t ht u hu (beq_iff_eq.mp h).symm
      rw [hnone]
      exact hts.leaving_le_two t.source
    · have hnone : ts.countP (·.source == i) = 0 :=
        List.countP_eq_zero.mpr fun t ht h => hi ⟨t, ht, beq_iff_eq.mp h⟩
      rw [hnone, Nat.zero_add]
      exact hus.leaving_le_two i
  · intro t ht hsymbol u hu hs
    rcases List.mem_append.mp ht with ht | ht <;> rcases List.mem_append.mp hu with hu | hu
    · exact hts.symbol_alone t ht hsymbol u hu hs
    · exact absurd hs.symm (hapart t ht u hu)
    · exact absurd hs (hapart u hu t ht)
    · exact hus.symbol_alone t ht hsymbol u hu hs

/-- Their order does not matter. -/
theorem Tidy.perm (hts : Tidy ts) (hperm : ts.Perm us) : Tidy us := by
  refine ⟨hperm.nodup_iff.mp hts.nodup, fun i => ?_, fun t ht hsymbol u hu => ?_⟩
  · rw [← hperm.countP_eq]
    exact hts.leaving_le_two i
  · exact hts.symbol_alone t (hperm.mem_iff.mpr ht) hsymbol u (hperm.mem_iff.mpr hu)

theorem tidy_single (t : Transition) : Tidy [t] := by
  refine ⟨List.nodup_singleton t, fun i => ?_, fun u hu _ v hv _ => ?_⟩
  · exact Nat.le_trans List.countP_le_length (Nat.le_succ 1)
  · rw [List.mem_singleton.mp hu, List.mem_singleton.mp hv]

/-- A transition from `i` that consumes nothing, to `j`, and one to `k` if `both`. -/
def fork (i j k : Int) (both : Bool) : List Transition :=
  ⟨i, j, none⟩ :: if both then [⟨i, k, none⟩] else []

theorem source_of_mem_fork {i j k : Int} {both : Bool} {t : Transition}
    (ht : t ∈ fork i j k both) : t.source = i := by
  cases both with
  | false =>
    obtain rfl := List.mem_singleton.mp ht
    rfl
  | true => rcases List.mem_pair.mp ht with rfl | rfl <;> rfl

theorem tidy_fork {i j k : Int} (hjk : j ≠ k) (both : Bool) : Tidy (fork i j k both) := by
  cases both with
  | false => exact tidy_single _
  | true =>
    refine ⟨List.nodup_cons.mpr ⟨fun h => ?_, List.nodup_singleton _⟩, fun _ => ?_, fun t ht => ?_⟩
    · exact hjk (Transition.mk.inj (List.mem_singleton.mp h)).2.1
    · exact List.countP_le_length
    · rcases List.mem_pair.mp ht with rfl | rfl <;> exact fun h => absurd rfl h

/-! ### Renaming -/

theorem rename_injective (hf : Function.Injective f) :
    Function.Injective (Transition.rename f) := by
  rintro ⟨i, j, x⟩ ⟨i', j', x'⟩ heq
  simp only [Transition.rename, Transition.mk.injEq] at heq ⊢
  exact ⟨hf heq.1, hf heq.2.1, heq.2.2⟩

theorem countP_source_rename (hf : Function.Involutive f) (ts : List Transition) (i : Int) :
    (ts.map (·.rename f)).countP (·.source == i) = ts.countP (·.source == f i) := by
  rw [List.countP_map]
  refine List.countP_congr fun t _ => ?_
  show (f t.source == i) = true ↔ (t.source == f i) = true
  rw [beq_iff_eq, beq_iff_eq, hf.eq_iff]

/-- A renaming that undoes itself keeps a list tidy. -/
theorem Tidy.rename (h : Tidy ts) (hf : Function.Involutive f) : Tidy (ts.map (·.rename f)) := by
  refine ⟨h.nodup.map (rename_injective hf.injective), fun i => ?_, ?_⟩
  · rw [countP_source_rename hf]
    exact h.leaving_le_two (f i)
  · intro t' ht' hsymbol u' hu' hs
    obtain ⟨t, ht, rfl⟩ := List.mem_map.mp ht'
    obtain ⟨u, hu, rfl⟩ := List.mem_map.mp hu'
    rw [h.symbol_alone t ht hsymbol u hu (hf.injective hs)]

/-- **It keeps the shape**, between the renamed ends. -/
theorem Shaped.rename (h : Shaped ts start final) (hf : Function.Involutive f) :
    Shaped (ts.map (·.rename f)) (f start) (f final) := by
  refine ⟨h.toTidy.rename hf, fun t' ht' heq => ?_, fun t' ht' heq => ?_⟩
  · obtain ⟨t, ht, rfl⟩ := List.mem_map.mp ht'
    exact h.target_ne_start t ht (hf.injective heq)
  · obtain ⟨t, ht, rfl⟩ := List.mem_map.mp ht'
    exact h.source_ne_final t ht (hf.injective heq)

end

namespace Regex

variable {base width width' : Nat} {ts us : List Transition} {f g outer : Fragment}

/-! ## One construct -/

/-- Two fragments in neighbouring blocks are tidy together. -/
theorem tidy_beside (hts : StayWithin base width ts) (hus : StayWithin (base + width) width' us)
    (hf : Tidy ts) (hg : Tidy us) : Tidy (ts ++ us) :=
  hf.append hg fun t ht u hu => (hts t ht).1.ne_of_neighbours (hus u hu).1

/-- One transition between two states has the shape. -/
theorem shaped_single {i j : Int} {symbol : Symbol} (hij : i ≠ j) :
    Shaped [⟨i, j, symbol⟩] i j := by
  refine ⟨tidy_single _, fun t ht => ?_, fun t ht => ?_⟩
  · obtain rfl := List.mem_singleton.mp ht
    exact hij.symm
  · obtain rfl := List.mem_singleton.mp ht
    exact hij

/-- Joining two fragments leaves the final state of the first, which nothing left before. -/
theorem shaped_concat (hts : StayWithin base width ts)
    (hus : StayWithin (base + width) width' us) (hf : Spans base width f)
    (hg : Spans (base + width) width' g) (hfirst : Shaped ts f.start f.final)
    (hsecond : Shaped us g.start g.final) :
    Shaped (ts ++ us ++ [⟨f.final, g.start, none⟩]) f.start g.final := by
  refine ⟨(tidy_beside hts hus hfirst.toTidy hsecond.toTidy).append (tidy_single _)
    fun t ht u hu => ?_, fun t ht => ?_, fun t ht => ?_⟩
  · obtain rfl := List.mem_singleton.mp hu
    rcases List.mem_append.mp ht with ht | ht
    · exact hfirst.source_ne_final t ht
    · exact (hf.final_within.ne_of_neighbours (hus t ht).1).symm
  · rcases List.mem_append.mp ht with ht | ht
    · rcases List.mem_append.mp ht with ht | ht
      · exact hfirst.target_ne_start t ht
      · exact (hf.start_within.ne_of_neighbours (hus t ht).2).symm
    · obtain rfl := List.mem_singleton.mp ht
      exact (hf.start_within.ne_of_neighbours hg.start_within).symm
  · rcases List.mem_append.mp ht with ht | ht
    · rcases List.mem_append.mp ht with ht | ht
      · exact (hts t ht).1.ne_of_neighbours hg.final_within
      · exact hsecond.source_ne_final t ht
    · obtain rfl := List.mem_singleton.mp ht
      exact hf.final_within.ne_of_neighbours hg.final_within

/-- Tidy transitions inside a block and tidy ones around it have the shape between the two new
ends. -/
theorem shaped_outer (hts : StayWithin base width ts) (hinner : Tidy ts) (houter : Tidy us)
    (hapart : ∀ t ∈ ts, ∀ u ∈ us, t.source ≠ u.source)
    (hstart : ∀ u ∈ us, u.target ≠ (base + width : Nat))
    (hfinal : ∀ u ∈ us, u.source ≠ (base + width + 1 : Nat)) :
    Shaped (ts ++ us) (base + width : Nat) (base + width + 1 : Nat) := by
  refine ⟨hinner.append houter hapart, fun t ht => ?_, fun t ht => ?_⟩
  · rcases List.mem_append.mp ht with ht | ht
    · exact (hts t ht).2.ne_outer.1
    · exact hstart t ht
  · rcases List.mem_append.mp ht with ht | ht
    · exact (hts t ht).1.ne_outer.2
    · exact hfinal t ht

/-- Putting two fragments beside each other leaves the new start state twice, and each of the old
final states once. -/
theorem tidy_unionEdges (hstart : (f.start : Int) ≠ g.start) (hfinal : (f.final : Int) ≠ g.final)
    (hfirst : (f.final : Int) ≠ outer.start) (hsecond : (g.final : Int) ≠ outer.start) :
    Tidy (unionEdges f g outer) := by
  refine ((tidy_fork hstart true).append (tidy_single _) fun t ht u hu => ?_).append
    (tidy_single _) fun t ht u hu => ?_
  · obtain rfl := List.mem_singleton.mp hu
    exact source_of_mem_fork ht ▸ hfirst.symm
  · obtain rfl := List.mem_singleton.mp hu
    rcases List.mem_append.mp ht with ht | ht
    · exact source_of_mem_fork ht ▸ hsecond.symm
    · obtain rfl := List.mem_singleton.mp ht
      exact hfinal

/-- Putting two fragments beside each other leaves their final states, which nothing left before,
and nothing enters the new start state. -/
theorem shaped_union (hts : StayWithin base width ts)
    (hus : StayWithin (base + width) width' us) (hf : Spans base width f)
    (hg : Spans (base + width) width' g) (hfirst : Shaped ts f.start f.final)
    (hsecond : Shaped us g.start g.final)
    (houter : outer = ⟨base + (width + width'), base + (width + width') + 1⟩) :
    Shaped (ts ++ us ++ unionEdges f g outer) outer.start outer.final := by
  have hends := ends_ne houter
  subst houter
  have hwithin := hts.left.append hus.right
  have hfirst_final : Within base (width + width') f.final := hf.final_within.left
  have hsecond_final : Within base (width + width') g.final := hg.final_within.right
  refine shaped_outer hwithin (tidy_beside hts hus hfirst.toTidy hsecond.toTidy)
    (tidy_unionEdges (hf.start_within.ne_of_neighbours hg.start_within)
      (hf.final_within.ne_of_neighbours hg.final_within) hfirst_final.ne_outer.1
      hsecond_final.ne_outer.1)
    (fun t ht u hu => ?_) (fun u hu => ?_) (fun u hu => ?_)
  · rcases mem_unionEdges.mp hu with rfl | rfl | rfl | rfl
    · exact (hwithin t ht).1.ne_outer.1
    · exact (hwithin t ht).1.ne_outer.1
    · rcases List.mem_append.mp ht with ht | ht
      · exact hfirst.source_ne_final t ht
      · exact (hf.final_within.ne_of_neighbours (hus t ht).1).symm
    · rcases List.mem_append.mp ht with ht | ht
      · exact (hts t ht).1.ne_of_neighbours hg.final_within
      · exact hsecond.source_ne_final t ht
  · rcases mem_unionEdges.mp hu with rfl | rfl | rfl | rfl
    · exact hf.start_within.left.ne_outer.1
    · exact hg.start_within.right.ne_outer.1
    · exact hends.symm
    · exact hends.symm
  · rcases mem_unionEdges.mp hu with rfl | rfl | rfl | rfl
    · exact hends
    · exact hends
    · exact hfirst_final.ne_outer.2
    · exact hsecond_final.ne_outer.2

/-- Repeating a fragment leaves the new start state and the old final state, twice each at the
most. -/
theorem tidy_repeatEdges {again bypass : Bool} (hstart : (f.start : Int) ≠ outer.final)
    (hfinal : (f.final : Int) ≠ outer.start) : Tidy (repeatEdges again bypass f outer) := by
  -- in another order: those that leave the new start state, then those that leave the old final one
  refine ((tidy_fork hstart bypass).append (tidy_fork hstart.symm again) ?_).perm
    (List.perm_append_comm.cons (⟨outer.start, f.start, none⟩ : Transition))
  intro t ht u hu
  rw [source_of_mem_fork ht, source_of_mem_fork hu]
  exact hfinal.symm

/-- Repeating a fragment leaves its final state, which nothing left before, and nothing enters the
new start state. -/
theorem shaped_repeat {again bypass : Bool} (hts : StayWithin base width ts)
    (hf : Spans base width f) (hinner : Shaped ts f.start f.final)
    (houter : outer = ⟨base + width, base + width + 1⟩) :
    Shaped (ts ++ repeatEdges again bypass f outer) outer.start outer.final := by
  have hends := ends_ne houter
  subst houter
  have hstart := hf.start_within.ne_outer
  have hfinal := hf.final_within.ne_outer
  refine shaped_outer hts hinner.toTidy (tidy_repeatEdges hstart.2 hfinal.1)
    (fun t ht u hu => ?_) (fun u hu => ?_) (fun u hu => ?_)
  · rcases mem_repeatEdges.mp hu with rfl | rfl | ⟨_, rfl⟩ | ⟨_, rfl⟩
    · exact (hts t ht).1.ne_outer.1
    · exact hinner.source_ne_final t ht
    · exact hinner.source_ne_final t ht
    · exact (hts t ht).1.ne_outer.1
  · rcases mem_repeatEdges.mp hu with rfl | rfl | ⟨_, rfl⟩ | ⟨_, rfl⟩
    · exact hstart.1
    · exact hends.symm
    · exact hstart.1
    · exact hends.symm
  · rcases mem_repeatEdges.mp hu with rfl | rfl | ⟨_, rfl⟩ | ⟨_, rfl⟩
    · exact hends
    · exact hfinal.2
    · exact hfinal.2
    · exact hends

/-! ## Every expression -/

/-- **The automaton of an expression has the shape.** -/
theorem shaped_edges (r : Regex) (base : Nat) :
    Shaped (r.edges base) (r.fragment base).start (r.fragment base).final := by
  induction r generalizing base with
  | epsilon => exact shaped_single (by omega)
  | symbol s => exact shaped_single (by omega)
  | concat r₁ r₂ ih₁ ih₂ =>
    exact shaped_concat (stayWithin_edges r₁ base) (stayWithin_edges r₂ _) (spans_fragment r₁ base)
      (spans_fragment r₂ _) (ih₁ base) (ih₂ _)
  | union r₁ r₂ ih₁ ih₂ =>
    exact shaped_union (stayWithin_edges r₁ base) (stayWithin_edges r₂ _) (spans_fragment r₁ base)
      (spans_fragment r₂ _) (ih₁ base) (ih₂ _) rfl
  | star r ih =>
    exact shaped_repeat (stayWithin_edges r base) (spans_fragment r base) (ih base) rfl
  | plus r ih =>
    exact shaped_repeat (stayWithin_edges r base) (spans_fragment r base) (ih base) rfl
  | optional r ih =>
    exact shaped_repeat (stayWithin_edges r base) (spans_fragment r base) (ih base) rfl

end Regex

end RegexStepper

import RegexStepper.Proofs.Thompson.Layout

/-!
# Paths through the automaton of an expression

* **`path_edges_iff`**: the paths from the start to the final state of an expression spell exactly
  what the expression matches.
* **`threaded_edges`**: each state of an expression lies on a path from the start to the final one.

Each construct is one lemma about transition lists in blocks (`path_concat_iff`, `path_union_iff`,
`path_repeat_iff`). Its hard half goes back along a path to the final state: each state has a
predicate on the words still to be read (`Path.backward`), chosen by the block the state is in.
-/

namespace RegexStepper

namespace Regex

variable {base width width' : Nat} {ts us : List Transition} {f g outer : Fragment}
  {w : List String}

/-! ## One construct -/

/-- One transition between two states spells its own symbol. -/
theorem path_single_iff {i j : Int} {symbol : Symbol} (hij : i ≠ j) :
    Path [⟨i, j, symbol⟩] i w j ↔ w = symbol.toList := by
  constructor
  · intro h
    refine (Path.backward (K := fun k w => (k = i → w = symbol.toList) ∧ (k = j → w = []))
      ⟨fun h => absurd h hij.symm, fun _ => rfl⟩ (fun t ht w hK => ?_) h).1 rfl
    obtain rfl := List.mem_singleton.mp ht
    obtain rfl := hK.2 rfl
    exact ⟨fun _ => List.append_nil _, fun h => absurd h hij⟩
  · rintro rfl
    have ht : (⟨i, j, symbol⟩ : Transition) ∈ [⟨i, j, symbol⟩] := List.mem_cons_self
    simpa using Path.cons ht (.nil j)

/-- Two fragments in neighbouring blocks, joined by one transition, are passed one after the
other. -/
theorem path_concat_iff (hts : StayWithin base width ts)
    (hus : StayWithin (base + width) width' us) (hf : Spans base width f)
    (hg : Spans (base + width) width' g) :
    Path (ts ++ us ++ [⟨f.final, g.start, none⟩]) f.start w g.final ↔
      ∃ u v, Path ts f.start u f.final ∧ Path us g.start v g.final ∧ w = u ++ v := by
  constructor
  · intro h
    refine (Path.backward (K := fun i w =>
        (Within base width i →
          ∃ u v, Path ts i u f.final ∧ Path us g.start v g.final ∧ w = u ++ v) ∧
        (Within (base + width) width' i → Path us i w g.final))
      ⟨?_, fun _ => .nil _⟩ (fun t ht w hK => ?_) h).1 hf.start_within
    · exact fun h => absurd hg.final_within h.disjoint
    · rcases List.mem_append.mp ht with ht | ht
      · rcases List.mem_append.mp ht with ht | ht
        · refine ⟨fun _ => ?_, fun h => absurd h (hts t ht).1.disjoint⟩
          obtain ⟨u, v, hu, hv, rfl⟩ := hK.1 (hts t ht).2
          exact ⟨_, v, hu.cons ht, hv, (List.append_assoc _ _ _).symm⟩
        · exact ⟨fun h => absurd (hus t ht).1 h.disjoint, fun _ => (hK.2 (hus t ht).2).cons ht⟩
      · obtain rfl := List.mem_singleton.mp ht
        refine ⟨fun _ => ⟨[], w, .nil _, hK.2 hg.start_within, rfl⟩, fun h => ?_⟩
        exact absurd h hf.final_within.disjoint
  · rintro ⟨u, v, hu, hv, rfl⟩
    refine (hu.mono fun t ht => ?_).append (.epsilon ?_ (hv.mono fun t ht => ?_))
    · exact List.mem_append_left _ (List.mem_append_left _ ht)
    · exact List.mem_append_right _ List.mem_cons_self
    · exact List.mem_append_left _ (List.mem_append_right _ ht)

theorem ends_ne (houter : outer = ⟨base + width, base + width + 1⟩) :
    (outer.start : Int) ≠ outer.final := by
  subst houter
  simp only
  omega

/-- A fragment put between two ends is entered from the first and left for the second. -/
theorem path_through (hsub : ∀ t ∈ ts, t ∈ us) (henter : ⟨outer.start, f.start, none⟩ ∈ us)
    (hleave : ⟨f.final, outer.final, none⟩ ∈ us) (h : Path ts f.start w f.final) :
    Path us outer.start w outer.final := by
  have hthrough := (h.mono hsub).append (.ofEpsilon hleave)
  rw [List.append_nil] at hthrough
  exact .epsilon henter hthrough

/-- Of two fragments in neighbouring blocks, put beside each other between two new ends, one is
passed. -/
theorem path_union_iff (hts : StayWithin base width ts)
    (hus : StayWithin (base + width) width' us) (hf : Spans base width f)
    (hg : Spans (base + width) width' g)
    (houter : outer = ⟨base + (width + width'), base + (width + width') + 1⟩) :
    Path (ts ++ us ++ unionEdges f g outer) outer.start w outer.final ↔
      Path ts f.start w f.final ∨ Path us g.start w g.final := by
  have hin : ∀ {i}, Within base (width + width') i → i ≠ outer.start ∧ i ≠ outer.final := by
    subst houter
    exact Within.ne_outer
  have hleft := fun {i : Int} (h : Within base width i) => hin h.left
  have hright := fun {i : Int} (h : Within (base + width) width' i) => hin h.right
  have hends := ends_ne houter
  constructor
  · intro h
    refine (Path.backward (K := fun i w =>
        (Within base width i → Path ts i w f.final) ∧
        (Within (base + width) width' i → Path us i w g.final) ∧
        (i = outer.start → Path ts f.start w f.final ∨ Path us g.start w g.final) ∧
        (i = outer.final → w = []))
      ⟨?_, ?_, ?_, fun _ => rfl⟩ (fun t ht w hK => ?_) h).2.2.1 rfl
    · exact fun h => absurd rfl (hleft h).2
    · exact fun h => absurd rfl (hright h).2
    · exact fun h => absurd h hends.symm
    · rcases List.mem_append.mp ht with ht | ht
      · rcases List.mem_append.mp ht with ht | ht
        · obtain ⟨hsource, htarget⟩ := hts t ht
          exact ⟨fun _ => (hK.1 htarget).cons ht, fun h => absurd h hsource.disjoint,
            fun h => absurd h (hleft hsource).1, fun h => absurd h (hleft hsource).2⟩
        · obtain ⟨hsource, htarget⟩ := hus t ht
          exact ⟨fun h => absurd hsource h.disjoint, fun _ => (hK.2.1 htarget).cons ht,
            fun h => absurd h (hright hsource).1, fun h => absurd h (hright hsource).2⟩
      · rcases mem_unionEdges.mp ht with rfl | rfl | rfl | rfl
        · exact ⟨fun h => absurd rfl (hleft h).1, fun h => absurd rfl (hright h).1,
            fun _ => Or.inl (hK.1 hf.start_within), fun h => absurd h hends⟩
        · exact ⟨fun h => absurd rfl (hleft h).1, fun h => absurd rfl (hright h).1,
            fun _ => Or.inr (hK.2.1 hg.start_within), fun h => absurd h hends⟩
        · obtain rfl := hK.2.2.2 rfl
          have hfinal := hf.final_within
          exact ⟨fun _ => .nil _, fun h => absurd h hfinal.disjoint,
            fun h => absurd h (hleft hfinal).1, fun h => absurd h (hleft hfinal).2⟩
        · obtain rfl := hK.2.2.2 rfl
          have hfinal := hg.final_within
          exact ⟨fun h => absurd hfinal h.disjoint, fun _ => .nil _,
            fun h => absurd h (hright hfinal).1, fun h => absurd h (hright hfinal).2⟩
  · have hnew : ∀ {t}, t ∈ unionEdges f g outer → t ∈ ts ++ us ++ unionEdges f g outer := fun ht =>
      List.mem_append_right _ ht
    rintro (h | h)
    · exact path_through (fun t ht => List.mem_append_left _ (List.mem_append_left _ ht))
        (hnew (mem_unionEdges.mpr (Or.inl rfl)))
        (hnew (mem_unionEdges.mpr (Or.inr (Or.inr (Or.inl rfl))))) h
    · exact path_through (fun t ht => List.mem_append_left _ (List.mem_append_right _ ht))
        (hnew (mem_unionEdges.mpr (Or.inr (Or.inl rfl))))
        (hnew (mem_unionEdges.mpr (Or.inr (Or.inr (Or.inr rfl))))) h

section Repeat

variable {again bypass : Bool} {r : Regex}

/-- From the final state of a fragment that is repeated, any further repetitions lead to the end. -/
theorem path_again (hf : ∀ u, Matches r u → Path ts f.start u f.final)
    (hw : Matches (star r) w) (hagain : again = false → w = []) :
    Path (ts ++ repeatEdges again bypass f outer) f.final w outer.final := by
  have hleave : Path (ts ++ repeatEdges again bypass f outer) f.final [] outer.final :=
    .ofEpsilon (List.mem_append_right _ (mem_repeatEdges.mpr (Or.inr (Or.inl rfl))))
  cases again with
  | false =>
    rw [hagain rfl]
    exact hleave
  | true =>
    refine star_induction (P := fun w =>
      Path (ts ++ repeatEdges true bypass f outer) f.final w outer.final)
      hleave (fun u v hu hv => ?_) hw
    have hback : ⟨f.final, f.start, none⟩ ∈ ts ++ repeatEdges true bypass f outer :=
      List.mem_append_right _ (mem_repeatEdges.mpr (Or.inr (Or.inr (Or.inl ⟨rfl, rfl⟩))))
    exact .epsilon hback (((hf u hu).mono fun t ht => List.mem_append_left _ ht).append hv)

/-- A first round `u`, and more rounds after it if there is an arrow back. -/
def Rounds (again : Bool) (r : Regex) (first : List String → Prop) (w : List String) : Prop :=
  ∃ u v, first u ∧ Matches (star r) v ∧ (again = false → v = []) ∧ w = u ++ v

/-- A fragment between two new ends, with an arrow back or past it or both, is passed once and
then again any number of times, or not at all. -/
theorem path_repeat_iff (hts : StayWithin base width ts) (hf : Spans base width f)
    (hr : ∀ u, Path ts f.start u f.final ↔ Matches r u)
    (houter : outer = ⟨base + width, base + width + 1⟩) :
    Path (ts ++ repeatEdges again bypass f outer) outer.start w outer.final ↔
      bypass = true ∧ w = [] ∨ Rounds again r (Matches r) w := by
  have hin : ∀ {i}, Within base width i → i ≠ outer.start ∧ i ≠ outer.final := by
    subst houter
    exact Within.ne_outer
  have hends := ends_ne houter
  constructor
  · intro h
    refine (Path.backward (K := fun i w =>
        (Within base width i → Rounds again r (fun u => Path ts i u f.final) w) ∧
        (i = outer.start → bypass = true ∧ w = [] ∨ Rounds again r (Matches r) w) ∧
        (i = outer.final → w = []))
      ⟨?_, ?_, fun _ => rfl⟩ (fun t ht w hK => ?_) h).2.1 rfl
    · exact fun h => absurd rfl (hin h).2
    · exact fun h => absurd h hends.symm
    · rcases List.mem_append.mp ht with ht | ht
      · obtain ⟨hsource, htarget⟩ := hts t ht
        refine ⟨fun _ => ?_, fun h => absurd h (hin hsource).1, fun h => absurd h (hin hsource).2⟩
        obtain ⟨u, v, hu, hv, hagain, rfl⟩ := hK.1 htarget
        exact ⟨_, v, hu.cons ht, hv, hagain, (List.append_assoc _ _ _).symm⟩
      · have hfinal := hin hf.final_within
        rcases mem_repeatEdges.mp ht with rfl | rfl | ⟨ha, rfl⟩ | ⟨hb, rfl⟩
        · refine ⟨fun h => absurd rfl (hin h).1, fun _ => Or.inr ?_, fun h => absurd h hends⟩
          obtain ⟨u, v, hu, hv, hagain, rfl⟩ := hK.1 hf.start_within
          exact ⟨u, v, (hr u).mp hu, hv, hagain, rfl⟩
        · obtain rfl := hK.2.2 rfl
          exact ⟨fun _ => ⟨[], [], .nil _, .starNone, fun _ => rfl, rfl⟩,
            fun h => absurd h hfinal.1, fun h => absurd h hfinal.2⟩
        · refine ⟨fun _ => ?_, fun h => absurd h hfinal.1, fun h => absurd h hfinal.2⟩
          obtain ⟨u, v, hu, hv, _, rfl⟩ := hK.1 hf.start_within
          exact ⟨[], u ++ v, .nil _, .starMore ((hr u).mp hu) hv,
            fun h => absurd (ha.symm.trans h) Bool.true_eq_false.mp, rfl⟩
        · obtain rfl := hK.2.2 rfl
          exact ⟨fun h => absurd rfl (hin h).1, fun _ => Or.inl ⟨hb, rfl⟩, fun h => absurd h hends⟩
  · have hnew : ∀ {t}, t ∈ repeatEdges again bypass f outer →
        t ∈ ts ++ repeatEdges again bypass f outer := fun ht => List.mem_append_right _ ht
    rintro (⟨hb, rfl⟩ | ⟨u, v, hu, hv, hagain, rfl⟩)
    · exact .ofEpsilon (hnew (mem_repeatEdges.mpr (Or.inr (Or.inr (Or.inr ⟨hb, rfl⟩)))))
    · refine .epsilon (hnew (mem_repeatEdges.mpr (Or.inl rfl))) ?_
      exact (((hr u).mpr hu).mono fun t ht => List.mem_append_left _ ht).append
        (path_again (fun u => (hr u).mpr) hv hagain)

end Repeat

/-! ## Every expression -/

/-- **The automaton of an expression spells what the expression matches.** -/
theorem path_edges_iff (r : Regex) (base : Nat) (w : List String) :
    Path (r.edges base) (r.fragment base).start w (r.fragment base).final ↔ Matches r w := by
  induction r generalizing base w with
  | epsilon =>
    rw [matches_epsilon_iff]
    exact path_single_iff (by omega)
  | symbol s =>
    rw [matches_symbol_iff]
    exact path_single_iff (by omega)
  | concat r₁ r₂ ih₁ ih₂ =>
    rw [matches_concat_iff]
    refine (path_concat_iff (stayWithin_edges r₁ base) (stayWithin_edges r₂ _)
      (spans_fragment r₁ base) (spans_fragment r₂ _)).trans ?_
    simp only [ih₁, ih₂]
  | union r₁ r₂ ih₁ ih₂ =>
    rw [matches_union_iff, ← ih₁ base w, ← ih₂ (base + r₁.width) w]
    exact path_union_iff (stayWithin_edges r₁ base) (stayWithin_edges r₂ _)
      (spans_fragment r₁ base) (spans_fragment r₂ _) rfl
  | star r ih =>
    rw [matches_star_iff]
    refine (path_repeat_iff (stayWithin_edges r base) (spans_fragment r base) (ih base)
      rfl).trans ?_
    simp [Rounds]
  | plus r ih =>
    rw [matches_plus_iff]
    refine (path_repeat_iff (stayWithin_edges r base) (spans_fragment r base) (ih base)
      rfl).trans ?_
    simp [Rounds]
  | optional r ih =>
    rw [matches_optional_iff]
    refine (path_repeat_iff (stayWithin_edges r base) (spans_fragment r base) (ih base)
      rfl).trans ?_
    constructor
    · rintro (⟨_, h⟩ | ⟨u, v, hu, _, hv, rfl⟩)
      · exact Or.inl h
      · rw [hv rfl, List.append_nil]
        exact Or.inr hu
    · rintro (h | h)
      · exact Or.inl ⟨rfl, h⟩
      · exact Or.inr ⟨w, [], h, .starNone, fun _ => rfl, (List.append_nil w).symm⟩

/-! ## No useless state -/

/-- Each id of a block lies between `start` and `final`: a path leads to it and a path leads on. -/
def Threaded (ts : List Transition) (base width : Nat) (start final : Int) : Prop :=
  ∀ i, Within base width i → (∃ u, Path ts start u i) ∧ ∃ v, Path ts i v final

/-- With ways to its start and from its final state, a block lies between their far ends. -/
theorem Threaded.around {start final start' final' : Int} (h : Threaded ts base width start final)
    (hsub : ∀ t ∈ ts, t ∈ us) (henter : ∃ u, Path us start' u start)
    (hleave : ∃ v, Path us final v final') : Threaded us base width start' final' := by
  obtain ⟨u, hu⟩ := henter
  obtain ⟨v, hv⟩ := hleave
  intro i hi
  obtain ⟨⟨u', hu'⟩, ⟨v', hv'⟩⟩ := h i hi
  exact ⟨⟨u ++ u', hu.append (hu'.mono hsub)⟩, ⟨v' ++ v, (hv'.mono hsub).append hv⟩⟩

theorem Threaded.beside {start final : Int} (h : Threaded ts base width start final)
    (h' : Threaded ts (base + width) width' start final) :
    Threaded ts base (width + width') start final :=
  fun i hi => hi.split.elim (h i) (h' i)

/-- Two new ends lie between themselves if some path leads from the one to the other. -/
theorem Threaded.widened
    (h : Threaded ts base width (base + width : Nat) (base + width + 1 : Nat))
    (hthrough : ∃ w, Path ts (base + width : Nat) w (base + width + 1 : Nat)) :
    Threaded ts base (width + 2) (base + width : Nat) (base + width + 1 : Nat) := by
  intro i hi
  rcases hi.split_outer with hi | rfl | rfl
  · exact h i hi
  · exact ⟨⟨[], .nil _⟩, hthrough⟩
  · exact ⟨hthrough, ⟨[], .nil _⟩⟩

/-- A block put between two new ends, with arrows back and past it or not, lies between them. -/
theorem threaded_repeat {again bypass : Bool} (hf : Spans base width f)
    (h : Threaded ts base width f.start f.final)
    (houter : outer = ⟨base + width, base + width + 1⟩) :
    Threaded (ts ++ repeatEdges again bypass f outer) base (width + 2) outer.start
      outer.final := by
  have hsub : ∀ t ∈ ts, t ∈ ts ++ repeatEdges again bypass f outer := fun t ht =>
    List.mem_append_left _ ht
  have henter : ⟨outer.start, f.start, none⟩ ∈ ts ++ repeatEdges again bypass f outer :=
    List.mem_append_right _ (mem_repeatEdges.mpr (Or.inl rfl))
  have hleave : ⟨f.final, outer.final, none⟩ ∈ ts ++ repeatEdges again bypass f outer :=
    List.mem_append_right _ (mem_repeatEdges.mpr (Or.inr (Or.inl rfl)))
  obtain ⟨w, hw⟩ := (h _ hf.start_within).2
  have hthrough := path_through hsub henter hleave hw
  subst houter
  exact (h.around hsub ⟨[], .ofEpsilon henter⟩ ⟨[], .ofEpsilon hleave⟩).widened ⟨w, hthrough⟩

/-- **No state is useless**: each one lies between the start and the final state. -/
theorem threaded_edges (r : Regex) (base : Nat) :
    Threaded (r.edges base) base r.width (r.fragment base).start (r.fragment base).final := by
  induction r generalizing base with
  | epsilon | symbol s =>
    have hnone : ∀ {ts start final}, Threaded ts base 0 start final := fun i hi => by
      have := hi.1
      have := hi.2
      omega
    exact hnone.widened ⟨_, Path.cons List.mem_cons_self (.nil _)⟩
  | concat r₁ r₂ ih₁ ih₂ =>
    have hleft : ∀ t ∈ r₁.edges base, t ∈ (concat r₁ r₂).edges base := fun t ht =>
      List.mem_append_left _ (List.mem_append_left _ ht)
    have hright : ∀ t ∈ r₂.edges (base + r₁.width), t ∈ (concat r₁ r₂).edges base := fun t ht =>
      List.mem_append_left _ (List.mem_append_right _ ht)
    have hjoin : ⟨(r₁.fragment base).final, (r₂.fragment (base + r₁.width)).start, none⟩ ∈
        (concat r₁ r₂).edges base := List.mem_append_right _ List.mem_cons_self
    -- the first block leads on through the second, which is entered through the first
    obtain ⟨u, hu⟩ := (ih₁ base _ (spans_fragment r₁ base).final_within).1
    obtain ⟨v, hv⟩ := (ih₂ _ _ (spans_fragment r₂ _).start_within).2
    refine ((ih₁ base).around hleft ⟨[], .nil _⟩ ⟨v, .epsilon hjoin (hv.mono hright)⟩).beside
      ((ih₂ _).around hright ⟨_, (hu.mono hleft).append (.ofEpsilon hjoin)⟩ ⟨[], .nil _⟩)
  | union r₁ r₂ ih₁ ih₂ =>
    have hleft : ∀ t ∈ r₁.edges base, t ∈ (union r₁ r₂).edges base := fun t ht =>
      List.mem_append_left _ (List.mem_append_left _ ht)
    have hright : ∀ t ∈ r₂.edges (base + r₁.width), t ∈ (union r₁ r₂).edges base := fun t ht =>
      List.mem_append_left _ (List.mem_append_right _ ht)
    have hnew : ∀ {t}, t ∈ unionEdges (r₁.fragment base) (r₂.fragment (base + r₁.width))
        ((union r₁ r₂).fragment base) → t ∈ (union r₁ r₂).edges base := fun ht =>
      List.mem_append_right _ ht
    have henter := hnew (mem_unionEdges.mpr (Or.inl rfl))
    have henter' := hnew (mem_unionEdges.mpr (Or.inr (Or.inl rfl)))
    have hleave := hnew (mem_unionEdges.mpr (Or.inr (Or.inr (Or.inl rfl))))
    have hleave' := hnew (mem_unionEdges.mpr (Or.inr (Or.inr (Or.inr rfl))))
    obtain ⟨w, hw⟩ := (ih₁ base _ (spans_fragment r₁ base).start_within).2
    exact (((ih₁ base).around hleft ⟨[], .ofEpsilon henter⟩ ⟨[], .ofEpsilon hleave⟩).beside
      ((ih₂ _).around hright ⟨[], .ofEpsilon henter'⟩ ⟨[], .ofEpsilon hleave'⟩)).widened
      ⟨w, path_through hleft henter hleave hw⟩
  | star r ih => exact threaded_repeat (spans_fragment r base) (ih base) rfl
  | plus r ih => exact threaded_repeat (spans_fragment r base) (ih base) rfl
  | optional r ih => exact threaded_repeat (spans_fragment r base) (ih base) rfl

end Regex

end RegexStepper

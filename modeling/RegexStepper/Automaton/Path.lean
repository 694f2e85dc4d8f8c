import RegexStepper.Automaton.OutEdges

/-!
# Paths along transitions

`Path ts i w j`: transitions of the list `ts` lead from the id `i` to the id `j`, and the symbols on
them, those that consume nothing left out, are `w`. Paths compose (`Path.append`) and a path over a
longer word splits (`Path.split`).
-/

namespace RegexStepper

/-- A path from one id to another, with the symbols it consumes. -/
inductive Path (ts : List Transition) : Int → List String → Int → Prop where
  | nil (i : Int) : Path ts i [] i
  | epsilon {i j k : Int} {w : List String} :
    ⟨i, j, none⟩ ∈ ts → Path ts j w k → Path ts i w k
  | symbol {i j k : Int} {s : String} {w : List String} :
    ⟨i, j, some s⟩ ∈ ts → Path ts j w k → Path ts i (s :: w) k

namespace Path

variable {ts us : List Transition} {i j k : Int} {v w : List String}

theorem append (hij : Path ts i v j) (hjk : Path ts j w k) : Path ts i (v ++ w) k := by
  induction hij with
  | nil => exact hjk
  | epsilon ht _ ih => exact .epsilon ht (ih hjk)
  | symbol ht _ ih => exact .symbol ht (ih hjk)

/-- One transition that consumes nothing. -/
theorem ofEpsilon (h : ⟨i, j, none⟩ ∈ ts) : Path ts i [] j :=
  .epsilon h (.nil j)

/-- One transition before a path. -/
theorem cons {t : Transition} (ht : t ∈ ts) (h : Path ts t.target w k) :
    Path ts t.source (t.symbol.toList ++ w) k := by
  obtain ⟨i, j, _ | s⟩ := t
  · exact .epsilon ht h
  · exact .symbol ht h

/-- Whatever holds of `k` and passes back over each transition holds of each id with a path to
`k`. -/
theorem backward {K : Int → List String → Prop} (hnil : K k [])
    (hcons : ∀ t ∈ ts, ∀ w, K t.target w → K t.source (t.symbol.toList ++ w))
    (h : Path ts i w k) : K i w := by
  induction h with
  | nil => exact hnil
  | epsilon ht _ ih => exact hcons _ ht _ (ih hnil)
  | symbol ht _ ih => exact hcons _ ht _ (ih hnil)

/-- More transitions keep a path. -/
theorem mono (h : Path ts i w j) (hsub : ∀ t ∈ ts, t ∈ us) : Path us i w j := by
  induction h with
  | nil i => exact .nil i
  | epsilon ht _ ih => exact .epsilon (hsub _ ht) ih
  | symbol ht _ ih => exact .symbol (hsub _ ht) ih

/-- A path over two words passes a state between them. -/
theorem split (h : Path ts i (v ++ w) k) : ∃ j, Path ts i v j ∧ Path ts j w k := by
  generalize hu : v ++ w = u at h
  induction h generalizing v with
  | nil i =>
    obtain ⟨rfl, rfl⟩ := List.append_eq_nil_iff.1 hu
    exact ⟨i, .nil i, .nil i⟩
  | epsilon ht _ ih =>
    obtain ⟨m, hv, hw⟩ := ih hu
    exact ⟨m, .epsilon ht hv, hw⟩
  | symbol ht hrest ih =>
    rcases List.append_eq_cons_iff.1 hu with ⟨rfl, rfl⟩ | ⟨v', rfl, hv'⟩
    · exact ⟨_, .nil _, .symbol ht hrest⟩
    · obtain ⟨m, hv, hw⟩ := ih hv'.symm
      exact ⟨m, .symbol ht hv, hw⟩

/-- A path over one symbol takes a transition on it somewhere. -/
theorem single {s : String} (h : Path ts i [s] k) :
    ∃ m n, Path ts i [] m ∧ ⟨m, n, some s⟩ ∈ ts ∧ Path ts n [] k := by
  generalize hw : [s] = w at h
  induction h with
  | nil => cases hw
  | epsilon ht _ ih =>
    obtain ⟨m, n, hm, hmn, hn⟩ := ih hw
    exact ⟨m, n, .epsilon ht hm, hmn, hn⟩
  | symbol ht hrest =>
    cases hw
    exact ⟨_, _, .nil _, ht, hrest⟩

theorem snoc_iff {s : String} :
    Path ts i (w ++ [s]) k ↔
      ∃ m n, Path ts i w m ∧ ⟨m, n, some s⟩ ∈ ts ∧ Path ts n [] k := by
  constructor
  · intro h
    obtain ⟨j, hij, hjk⟩ := h.split
    obtain ⟨m, n, hm, hmn, hn⟩ := hjk.single
    exact ⟨m, n, by simpa using hij.append hm, hmn, hn⟩
  · rintro ⟨m, n, hm, hmn, hn⟩
    exact hm.append (.symbol hmn hn)

/-- The symbols of a path stand on transitions. -/
theorem symbol_mem (h : Path ts i w j) {s : String} (hs : s ∈ w) :
    ∃ t ∈ ts, t.symbol = some s := by
  induction h with
  | nil => exact absurd hs List.not_mem_nil
  | epsilon _ _ ih => exact ih hs
  | symbol ht _ ih =>
    rcases List.mem_cons.mp hs with rfl | hs
    · exact ⟨_, ht, rfl⟩
    · exact ih hs

/-- A set of ids that the transitions do not leave holds the end of a path from it. -/
theorem invariant {P : Int → Prop} (hts : ∀ t ∈ ts, P t.source → P t.target)
    (h : Path ts i w j) (hi : P i) : P j := by
  induction h with
  | nil => exact hi
  | epsilon ht _ ih => exact ih (hts _ ht hi)
  | symbol ht _ ih => exact ih (hts _ ht hi)

/-- Within a set of ids that the transitions do not leave, only those from the set matter. -/
theorem restrict {P : Int → Prop} (hts : ∀ t ∈ ts, P t.source → t ∈ us ∧ P t.target)
    (h : Path ts i w j) (hi : P i) : Path us i w j ∧ P j := by
  induction h with
  | nil i => exact ⟨.nil i, hi⟩
  | epsilon ht _ ih =>
    obtain ⟨hu, hj⟩ := hts _ ht hi
    exact (ih hj).imp_left (.epsilon hu)
  | symbol ht _ ih =>
    obtain ⟨hu, hj⟩ := hts _ ht hi
    exact (ih hj).imp_left (.symbol hu)

/-- Over no symbol it is enough that the transitions that consume nothing do not leave the set. -/
theorem silent {P : Int → Prop} (hts : ∀ i j, ⟨i, j, none⟩ ∈ ts → P i → P j)
    (h : Path ts i [] j) (hi : P i) : P j := by
  generalize hw : ([] : List String) = w at h
  induction h with
  | nil => exact hi
  | epsilon ht _ ih => exact ih (hts _ _ ht hi) hw
  | symbol => cases hw

/-- Renaming keeps paths. -/
theorem rename (f : Int → Int) (h : Path ts i w j) :
    Path (ts.map (Transition.rename f)) (f i) w (f j) := by
  induction h with
  | nil i => exact .nil (f i)
  | epsilon ht _ ih => exact .epsilon (List.mem_map_of_mem ht) ih
  | symbol ht _ ih => exact .symbol (List.mem_map_of_mem ht) ih

/-- A renaming that undoes itself adds no paths. -/
theorem rename_iff {f : Int → Int} (hf : ∀ i, f (f i) = i) :
    Path (ts.map (Transition.rename f)) i w j ↔ Path ts (f i) w (f j) := by
  have hmap : (ts.map (Transition.rename f)).map (Transition.rename f) = ts := by
    rw [List.map_map]
    refine List.map_id'' (fun t => ?_) ts
    simp only [Function.comp, Transition.rename, hf]
  constructor
  · intro h
    have := h.rename f
    rwa [hmap] at this
  · intro h
    have := h.rename f
    rwa [hf, hf] at this

end Path

end RegexStepper

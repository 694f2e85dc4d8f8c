import RegexStepper.Proofs.Thompson.Finish

/-!
# A draft that is used again

A draft is not emptied between two automata: the states, flags and transitions of earlier orders,
failed ones too, stay in it and are part of each later automaton, and finishing exchanges one of
them with the new start state. Nothing comes of them:

* whatever is asked of a draft, it stays sound (`Draft.Sound.after`), so that its transitions lead
  from old states to old states;
* an expression that is laid out on it has its own transitions alone, and no path leaves them
  (`Draft.Grown.restrict`), so that no old flag is reached (`Draft.Grown.accepts_iff`).

Headline: **`reused_draft_accepts_same`**.
-/

namespace RegexStepper

open Regex (Within StayWithin)

/-! ## Orders keep a draft sound -/

namespace Drafting

variable {α β : Type} {P : Draft → Prop}

/-- Whether it succeeds or fails, the action keeps a property of the draft. -/
def Keeps (P : Draft → Prop) (action : Drafting α) : Prop :=
  ∀ d, P d → P (stateAfter action d)

theorem Keeps.bind {x : Drafting α} {f : α → Drafting β} (hx : Keeps P x)
    (hf : ∀ a, Keeps P (f a)) : Keeps P (x >>= f) := by
  intro d hd
  have hafter := hx d hd
  unfold stateAfter at hafter ⊢
  rw [EStateM.run_bind]
  cases hrun : x.run d with
  | ok a d' =>
    rw [hrun] at hafter
    exact hf a d' hafter
  | error fault d' =>
    rw [hrun] at hafter
    exact hafter

theorem keeps_forM {f : α → Drafting Unit} (hf : ∀ a, Keeps P (f a)) (as : List α) :
    Keeps P (forM as f) := by
  induction as with
  | nil => exact fun d hd => hd
  | cons a as ih =>
    rw [List.forM_cons]
    exact (hf a).bind fun _ => ih

theorem keeps_attempt (x : Except Fault α) : Keeps P (attempt x) := by
  cases x <;> exact fun d hd => hd

end Drafting

namespace Draft

variable {d : Draft}

/-- Setting a flag keeps the draft sound, and so does failing to. -/
theorem keeps_mark (i : Nat) (accepting : Bool) :
    Drafting.Keeps Sound (Drafting.mark i accepting) := by
  intro d hd
  by_cases hi : i < d.accepting.size
  · rw [stateAfter_of_ok (Drafting.run_mark hi)]
    exact hd.mono (Nat.le_of_eq Array.size_setIfInBounds.symm) rfl (List.Subset.refl _)
  · have hrun : (Drafting.mark i accepting).run d = .error (.noSuchFlag i) d := by
      simp only [Drafting.mark, EStateM.run, hi, dif_neg, not_false_eq_true]
    rwa [stateAfter_of_error hrun]

theorem keeps_apply (t : Token) : Drafting.Keeps Sound (Drafting.apply t) := by
  intro d hd
  rcases hd.apply_cases t with ⟨_, fault, hrun, _⟩ | ⟨_, n, d', _, hrun, hd', _⟩
  · rwa [stateAfter_of_error hrun]
  · rwa [stateAfter_of_ok hrun]

theorem keeps_assemble (ts : List Token) : Drafting.Keeps Sound (Drafting.assemble ts) := by
  have hempty : Drafting.Keeps Sound (modify fun d => { d with fragments := [] }) :=
    fun d hd => hd.mono (Nat.le_refl _) rfl (List.nil_subset _)
  unfold Drafting.assemble
  -- no matter at which of the stages it stops
  refine (Drafting.keeps_forM keeps_apply ts).bind fun _ => ?_
  refine Drafting.Keeps.bind (fun d hd => hd) fun d => ?_
  split
  · refine hempty.bind fun _ => (keeps_mark _ _).bind fun _ => (keeps_mark _ _).bind fun _ => ?_
    exact Drafting.Keeps.bind (fun d hd => hd) fun d => Drafting.keeps_attempt _
  · exact Drafting.keeps_attempt _

theorem keeps_assembleEmpty : Drafting.Keeps Sound Drafting.assembleEmpty := by
  have hnew : Drafting.Keeps Sound (Drafting.newState true) := by
    intro d hd
    have hsize : (d.accepting.push true).size = d.accepting.size + 1 := Array.size_push _
    exact hd.mono (hsize ▸ Nat.le_succ _) rfl (List.Subset.refl _)
  unfold Drafting.assembleEmpty
  exact hnew.bind fun _ => Drafting.Keeps.bind (fun d hd => hd) fun d => Drafting.keeps_attempt _

namespace Sound

/-- **Every order keeps a draft sound**, also one that fails half-way. -/
theorem perform (h : d.Sound) (o : Order) : (stateAfter o.perform d).Sound := by
  cases o with
  | apply t => exact keeps_apply t d h
  | assemble tokens =>
    rw [Order.perform, stateAfter_discard]
    exact keeps_assemble tokens d h
  | assembleEmpty =>
    rw [Order.perform, stateAfter_discard]
    exact keeps_assembleEmpty d h

/-- So does every sequence of orders. -/
theorem after (h : d.Sound) (orders : List Order) : (d.after orders).Sound := by
  induction orders generalizing d with
  | nil => exact h
  | cons o rest ih => exact ih (h.perform o)

end Sound

/-! ## An expression on old states -/

namespace Grown

variable {d₀ : Draft} {r : Regex}

/-- An expression has its states beside the old ones. -/
theorem size_complete (h : Grown d₀ [r] d) (f : Fragment) :
    (d.complete f).accepting.size = d₀.accepting.size + r.width := by
  simp only [complete, Array.size_setIfInBounds, h.size_eq, Regex.stackWidth, Nat.zero_add]

/-- Its transitions come after the old ones. -/
theorem transitions_eq_append (h : Grown d₀ [r] d) :
    d.transitions.toList = d₀.transitions.toList ++ r.edges d₀.accepting.size :=
  h.transitions_eq

/-- The old ones and its own lead between states. -/
theorem stay (h : Grown d₀ [r] d) (hd : d₀.Sound) :
    StayWithin 0 (d₀.accepting.size + r.width) d.transitions.toList := by
  have hnew := (Regex.stayWithin_edges r (0 + d₀.accepting.size)).right
  rw [h.transitions_eq_append]
  rw [Nat.zero_add] at hnew
  exact hd.stay.left.append hnew

/-- **No path leaves the expression**, since the old transitions lead from old states. -/
theorem restrict (h : Grown d₀ [r] d) (hd : d₀.Sound) {i j : Int} {w : List String}
    (hp : Path d.transitions.toList i w j) (hi : (d₀.accepting.size : Int) ≤ i) :
    Path (r.edges d₀.accepting.size) i w j ∧ (d₀.accepting.size : Int) ≤ j := by
  refine hp.restrict (P := fun k => (d₀.accepting.size : Int) ≤ k) (fun t ht hsource => ?_) hi
  rw [h.transitions_eq_append] at ht
  rcases List.mem_append.mp ht with hold | hnew
  · have hlt := (hd.stay t hold).1.2
    omega
  · exact ⟨hnew, (Regex.stayWithin_edges r _ t hnew).2.1⟩

variable {B : Automaton}

/-- **Finished on old states, the expression alone decides** what is accepted. -/
theorem accepts_iff (h : Grown d₀ [r] d) (hd : d₀.Sound)
    (hB : (d.complete (r.fragment d₀.accepting.size)).Finished
      (r.fragment d₀.accepting.size).start B) (text : List Char) :
    ∃ verdict, B.accepts text = .ok verdict ∧
      (verdict = true ↔ r.Matches (Regex.symbols text)) := by
  have hspans := Regex.spans_fragment r d₀.accepting.size
  have htargets : ∀ t ∈ d.transitions.toList, 0 ≤ t.target ∧
      t.target < (d.complete (r.fragment d₀.accepting.size)).accepting.size := by
    intro t ht
    obtain ⟨hlow, hhigh⟩ := (h.stay hd t ht).2
    rw [h.size_complete]
    omega
  obtain ⟨verdict, hverdict, haccepts⟩ := hB.accepts_iff htargets text
  refine ⟨verdict, hverdict, haccepts.trans ?_⟩
  rw [← Regex.path_edges_iff r d₀.accepting.size]
  constructor
  · rintro ⟨n, hflag, hpath⟩
    obtain ⟨hn, htrue⟩ := Array.getElem?_eq_some_iff.mp hflag
    -- the path ends in a state of the expression, so the flag met there is not an old one
    obtain ⟨hedges, hle⟩ := h.restrict hd hpath hspans.start_within.1
    rwa [(h.flag_iff hn (Int.ofNat_le.mp hle)).mp htrue] at hedges
  · intro hedges
    have hfinal := hspans.final_within.2
    rw [Int.ofNat_lt, ← h.size_complete] at hfinal
    have htrue := (h.flag_iff hfinal (Int.ofNat_le.mp hspans.final_within.1)).mpr rfl
    refine ⟨_, by rw [Array.getElem?_eq_getElem hfinal, htrue], hedges.mono fun t ht => ?_⟩
    show t ∈ d.transitions.toList
    rw [h.transitions_eq_append]
    exact List.mem_append_right _ ht

end Grown

end Draft

/-! ## Main result -/

namespace Drafting

/-- **A used draft gives the same language.** After any orders, failed ones too, that leave no
fragment, a token list that an empty draft assembles is assembled once more; the automaton has the
old states beside its own ones and accepts the same texts as the one of the empty draft. -/
theorem reused_draft_accepts_same {orders : List Order} {ts : List Token} {A : Automaton}
    (hnone : (Draft.empty.after orders).fragments = []) (hA : (assemble ts).result = .ok A) :
    ∃ B d, (assemble ts).run (Draft.empty.after orders) = .ok B d ∧ d.fragments = [] ∧
      B.stateCount = (Draft.empty.after orders).accepting.size + A.stateCount ∧
      ∀ text, ∃ verdict, A.accepts text = .ok verdict ∧ B.accepts text = .ok verdict := by
  have hsound := Draft.sound_empty.after orders
  generalize Draft.empty.after orders = d₀ at hnone hsound ⊢
  cases hregex : ReversePolish.regex? ts with
  | none =>
    obtain ⟨fault, hfault, _⟩ := assemble_fault hregex
    cases hA.symm.trans hfault
  | some r =>
    obtain ⟨A', hA', hdepicts⟩ := assemble_spec hregex
    obtain rfl : A = A' := Except.ok.inj (hA.symm.trans hA')
    obtain ⟨d, hrun, hgrown⟩ :=
      (Draft.grown_nil hnone).run_forM (ReversePolish.regex?_eq_some_iff.mp hregex)
    have hone : d.fragments = [r.fragment d₀.accepting.size] := hgrown.fragments_eq
    have hf : d.Holds (r.fragment d₀.accepting.size) := hgrown.holds _ (hone ▸ List.mem_cons_self)
    obtain ⟨hstart, hfinal⟩ := Draft.holds_complete.mpr hf
    obtain ⟨B, hB, hfinished⟩ := Draft.finish_spec hstart hfinal
    refine ⟨B, d.complete (r.fragment d₀.accepting.size), ?_, rfl, ?_, fun text => ?_⟩
    · rw [run_assemble hrun hone hf, hB]
      rfl
    · rw [hdepicts.stateCount_eq, ← hgrown.size_complete (r.fragment d₀.accepting.size)]
      exact hfinished.size_eq
    · obtain ⟨verdict, hverdict, hmatches⟩ := hgrown.accepts_iff hsound hfinished text
      have hrealizes := hdepicts.realizes
      obtain ⟨fresh, hfresh, haccepts⟩ :=
        hrealizes.indexed.accepts_spec hrealizes.start_hasId text
      obtain rfl : fresh = verdict := Bool.eq_iff_iff.mpr
        ((haccepts.trans (hrealizes.accepts_iff _)).trans hmatches.symm)
      exact ⟨fresh, hfresh, hverdict⟩

/-- An automaton is assembled; an operand is lacking; two expressions are left, over which another
automaton is made of no token; and the next list starts by joining the two. -/
def eventful : List Order :=
  [.assemble [⟨.literal, some "a", some 0⟩, ⟨.literal, some "b", some 1⟩, ⟨.concat, none, none⟩],
   .apply ⟨.star, none, some 0⟩,
   .assemble [⟨.literal, some "a", some 0⟩, ⟨.literal, some "b", some 1⟩],
   .assembleEmpty,
   .assemble [⟨.union, none, some 1⟩]]

/-- `a*` on eleven old states. -/
theorem reused_draft_accepts_same_eventful :
    (Draft.empty.after eventful).fragments = [] ∧
    (Draft.empty.after eventful).accepting =
      #[false, false, false, true, false, false, false, false, true, false, true] ∧
    ∃ A B d, (assemble [⟨.literal, some "a", some 0⟩, ⟨.star, none, some 1⟩]).result = .ok A ∧
      (assemble [⟨.literal, some "a", some 0⟩, ⟨.star, none, some 1⟩]).run
        (Draft.empty.after eventful) = .ok B d ∧
      B.stateCount = 15 ∧ B.accepts ['a', 'a'] = .ok true ∧ B.accepts ['a', 'b'] = .ok false := by
  have hnone : (Draft.empty.after eventful).fragments = [] := by decide +kernel
  have hflags : (Draft.empty.after eventful).accepting =
      #[false, false, false, true, false, false, false, false, true, false, true] := by
    decide +kernel
  obtain ⟨A, hA, hfacts⟩ := bind_eq_ok.mp (eq_ok_of_toOption (by decide +kernel :
    ((assemble [⟨.literal, some "a", some 0⟩, ⟨.star, none, some 1⟩]).result >>= fun A =>
      return (A.stateCount, A.accepts ['a', 'a'], A.accepts ['a', 'b'])).toOption =
      some (4, .ok true, .ok false)))
  obtain ⟨hcount, hyes, hno⟩ : A.stateCount = 4 ∧ A.accepts ['a', 'a'] = .ok true ∧
      A.accepts ['a', 'b'] = .ok false := by simpa using Except.ok.inj hfacts
  obtain ⟨B, d, hB, _, hsize, hsame⟩ := reused_draft_accepts_same hnone hA
  obtain ⟨yes, hyes', hBaa⟩ := hsame ['a', 'a']
  obtain ⟨no, hno', hBab⟩ := hsame ['a', 'b']
  obtain rfl := Except.ok.inj (hyes.symm.trans hyes')
  obtain rfl := Except.ok.inj (hno.symm.trans hno')
  rw [hflags, hcount] at hsize
  exact ⟨hnone, hflags, A, B, d, hA, hB, hsize, hBaa, hBab⟩

end Drafting

end RegexStepper

import RegexStepper.Proofs.Pattern.Escapes
import RegexStepper.Proofs.Refusal

/-!
# Groups

Which parentheses of a pattern have a partner, told from the pattern alone. `Pattern.depth` counts
by how many the groups that are opened before a place outnumber those that are closed. A group is
`LeftOpen` while the depth stays above the one it was opened at; a parenthesis that finds no such
group is `Unopened`, and a group that is left open at the end is `Unclosed`.

The scan of the tokens keeps the open groups in a list instead. Before every place, that list is
`Stacked`: its head is the group left open last, one level below the place, and its tail is what was
open where that group starts. Each of the steps of the scan keeps this (`Stacked.plain`,
`Stacked.opening`, `Stacked.closing`).

Headline: **`unmatched_of_lexFrom`**: what `ReversePolish.unmatched?` reports of the tokens is the
first unopened parenthesis of the pattern, else the last unclosed one.
-/

namespace RegexStepper

namespace Pattern

variable {cs before rest : List Char} {c d : Char} {i j k m n : Nat} {opened outer : List Nat}

/-- How many more groups are opened than closed by the first `n` characters. -/
def depth (cs : List Char) : Nat → Int
  | 0 => 0
  | n + 1 =>
    depth cs n + (if Unescaped cs '(' n then 1 else 0) - (if Unescaped cs ')' n then 1 else 0)

/-- The group that is opened at `j` is still open before place `n`: up to there the depth has been
above the one before the group. -/
structure LeftOpen (cs : List Char) (j n : Nat) : Prop where
  opening : Unescaped cs '(' j
  lt : j < n
  above : ∀ i, j < i → i ≤ n → depth cs j < depth cs i

/-- The parenthesis at `k` closes no group: none is left open before it. -/
def Unopened (cs : List Char) (k : Nat) : Prop :=
  Unescaped cs ')' k ∧ ∀ j, ¬ LeftOpen cs j k

/-- The group that is opened at `j` is never closed. -/
def Unclosed (cs : List Char) (j : Nat) : Prop :=
  LeftOpen cs j cs.length

/-- The first parenthesis that closes no group. -/
def FirstUnopened (cs : List Char) (k : Nat) : Prop :=
  Unopened cs k ∧ ∀ i, Unopened cs i → k ≤ i

/-- The last group that is never closed. -/
def LastUnclosed (cs : List Char) (j : Nat) : Prop :=
  Unclosed cs j ∧ ∀ i, Unclosed cs i → i ≤ j

/-- The parenthesis to be reported: the first unopened one, and where there is none the last
unclosed one. -/
inductive Unmatched (cs : List Char) : Option PatternError → Prop where
  | closing {k : Nat} : FirstUnopened cs k →
    Unmatched cs (some ⟨.unmatchedClosing, some (k : Int)⟩)
  | opening {j : Nat} : (∀ k, ¬ Unopened cs k) → LastUnclosed cs j →
    Unmatched cs (some ⟨.unmatchedOpening, some (j : Int)⟩)
  | none : (∀ k, ¬ Unopened cs k) → (∀ j, ¬ Unclosed cs j) → Unmatched cs none

/-! ## One character further -/

theorem Unescaped.eq (h : Unescaped cs c n) (h' : Unescaped cs d n) : c = d :=
  Option.some.inj (h.1.symm.trans h'.1)

theorem depth_succ_of_opening (h : Unescaped cs '(' n) : depth cs (n + 1) = depth cs n + 1 := by
  have hclosing : ¬ Unescaped cs ')' n := fun h' => absurd (h.eq h') (by decide)
  simp [depth, h, hclosing]

theorem depth_succ_of_closing (h : Unescaped cs ')' n) : depth cs (n + 1) = depth cs n - 1 := by
  have hopening : ¬ Unescaped cs '(' n := fun h' => absurd (h.eq h') (by decide)
  simp [depth, h, hopening]

theorem depth_succ_of_plain (hopening : ¬ Unescaped cs '(' n) (hclosing : ¬ Unescaped cs ')' n) :
    depth cs (n + 1) = depth cs n := by
  simp [depth, hopening, hclosing]

/-! ## Groups that are left open -/

theorem LeftOpen.depth_lt (h : LeftOpen cs j n) : depth cs j < depth cs n :=
  h.above n h.lt (Nat.le_refl n)

/-- A group has been open at every place up to where it still is. -/
theorem LeftOpen.back (h : LeftOpen cs j n) (hlt : j < m) (hle : m ≤ n) : LeftOpen cs j m :=
  ⟨h.opening, hlt, fun i hji him => h.above i hji (Nat.le_trans him hle)⟩

/-- It stays open at the next place if the depth is still above its own. -/
theorem LeftOpen.step (h : LeftOpen cs j n) (hdepth : depth cs j < depth cs (n + 1)) :
    LeftOpen cs j (n + 1) := by
  refine ⟨h.opening, Nat.lt_succ_of_lt h.lt, fun i hji hin => ?_⟩
  rcases Nat.le_succ_iff.mp hin with hin | rfl
  · exact h.above i hji hin
  · exact hdepth

/-- What is open where a group starts stays open as long as that group. -/
theorem LeftOpen.through (h : LeftOpen cs i j) (hgroup : LeftOpen cs j n) : LeftOpen cs i n := by
  refine ⟨h.opening, Nat.lt_trans h.lt hgroup.lt, fun m him hmn => ?_⟩
  rcases Nat.lt_or_ge j m with hjm | hmj
  · exact Int.lt_trans h.depth_lt (hgroup.above m hjm hmn)
  · exact h.above m him hmj

/-- Opening a group leaves it open. -/
theorem leftOpen_opening (h : Unescaped cs '(' n) : LeftOpen cs n (n + 1) := by
  refine ⟨h, Nat.lt_succ_self n, fun i hni hin => ?_⟩
  obtain rfl : i = n + 1 := by omega
  rw [depth_succ_of_opening h]
  omega

/-- A group that is open at the next place was open before, unless it is opened right there. -/
theorem LeftOpen.of_succ (h : LeftOpen cs j (n + 1)) (hopening : ¬ Unescaped cs '(' n) :
    LeftOpen cs j n := by
  have hne : j ≠ n := fun heq => hopening (heq ▸ h.opening)
  exact h.back (Nat.lt_of_le_of_ne (Nat.le_of_lt_succ h.lt) hne) (Nat.le_succ n)

/-! ## The list of open groups -/

/-- The groups that are open before place `n`, innermost first. -/
inductive Stacked (cs : List Char) : Nat → List Nat → Prop where
  | nil {n : Nat} : (∀ j, ¬ LeftOpen cs j n) → Stacked cs n []
  | cons {n j : Nat} {outer : List Nat} : LeftOpen cs j n → depth cs n = depth cs j + 1 →
    Stacked cs j outer → Stacked cs n (j :: outer)

/-- The list is the same wherever the same groups are open at the same depth. -/
theorem Stacked.congr (h : Stacked cs n opened) (hdepth : depth cs m = depth cs n)
    (hopen : ∀ j, LeftOpen cs j m ↔ LeftOpen cs j n) : Stacked cs m opened := by
  cases h with
  | nil hnone => exact .nil fun j hj => hnone j ((hopen j).mp hj)
  | cons hgroup hone houter => exact .cons ((hopen _).mpr hgroup) (hdepth.trans hone) houter

theorem stacked_zero : Stacked cs 0 [] :=
  .nil fun j hj => Nat.not_lt_zero j hj.lt

/-- The head of the list is the group opened last. -/
theorem Stacked.le_head (h : Stacked cs n (j :: outer)) (hi : LeftOpen cs i n) : i ≤ j := by
  cases h with
  | cons hgroup hone _ =>
    by_contra hlt
    -- inside the innermost group the depth never falls to the one a further group would need
    have habove := hgroup.above i (by omega) (Nat.le_of_lt hi.lt)
    have hbelow := hi.depth_lt
    omega

/-- A character that is no parenthesis opens and closes nothing. -/
theorem Stacked.plain (h : Stacked cs n opened) (hopening : ¬ Unescaped cs '(' n)
    (hclosing : ¬ Unescaped cs ')' n) : Stacked cs (n + 1) opened := by
  have hdepth := depth_succ_of_plain hopening hclosing
  refine h.congr hdepth fun j => ⟨fun hj => hj.of_succ hopening, fun hj => hj.step ?_⟩
  rw [hdepth]
  exact hj.depth_lt

theorem Stacked.opening (h : Stacked cs n opened) (hopening : Unescaped cs '(' n) :
    Stacked cs (n + 1) (n :: opened) :=
  .cons (leftOpen_opening hopening) (depth_succ_of_opening hopening) h

/-- Closing the innermost group leads back to what was open where it starts. -/
theorem Stacked.closing (h : Stacked cs n (j :: outer)) (hclosing : Unescaped cs ')' n) :
    Stacked cs (n + 1) outer := by
  have hopening : ¬ Unescaped cs '(' n := fun h' => absurd (hclosing.eq h') (by decide)
  have hhead := fun i => h.le_head (i := i)
  cases h with
  | cons hgroup hone houter =>
    have hdepth : depth cs (n + 1) = depth cs j := by
      rw [depth_succ_of_closing hclosing]
      omega
    refine houter.congr hdepth fun i => ⟨fun hi => ?_, fun hi => ?_⟩
    · have hne : i ≠ j := by
        rintro rfl
        exact absurd hi.depth_lt (by omega)
      have hle := hhead i (hi.of_succ hopening)
      exact hi.back (Nat.lt_of_le_of_ne hle hne) (Nat.le_succ_of_le (Nat.le_of_lt hgroup.lt))
    · refine (hi.through hgroup).step ?_
      rw [hdepth]
      exact hi.depth_lt

/-! ## The scan -/

/-- Before place `n` nothing is to be reported, and these groups are open. -/
structure Scanned (cs : List Char) (n : Nat) (opened : List Nat) : Prop where
  stacked : Stacked cs n opened
  le_unopened : ∀ k, Unopened cs k → n ≤ k

theorem scanned_zero : Scanned cs 0 [] :=
  ⟨stacked_zero, fun k _ => Nat.zero_le k⟩

theorem Scanned.succ_le_unopened (h : Scanned cs n opened) (hn : ¬ Unopened cs n) :
    ∀ k, Unopened cs k → n + 1 ≤ k := by
  intro k hk
  refine Nat.lt_of_le_of_ne (h.le_unopened k hk) ?_
  rintro rfl
  exact hn hk

theorem Scanned.plain (h : Scanned cs n opened) (hopening : ¬ Unescaped cs '(' n)
    (hclosing : ¬ Unescaped cs ')' n) : Scanned cs (n + 1) opened :=
  ⟨h.stacked.plain hopening hclosing, h.succ_le_unopened fun hn => hclosing hn.1⟩

theorem Scanned.opening (h : Scanned cs n opened) (hopening : Unescaped cs '(' n) :
    Scanned cs (n + 1) (n :: opened) :=
  ⟨h.stacked.opening hopening,
    h.succ_le_unopened fun hn => absurd (hn.1.eq hopening) (by decide)⟩

theorem Scanned.closing (h : Scanned cs n (j :: outer)) (hclosing : Unescaped cs ')' n) :
    Scanned cs (n + 1) outer := by
  refine ⟨h.stacked.closing hclosing, h.succ_le_unopened fun hn => ?_⟩
  cases h.stacked with
  | cons hgroup _ _ => exact hn.2 j hgroup

/-- A parenthesis that closes a group where none is open is the one to be reported. -/
theorem Scanned.unmatched_closing (h : Scanned cs n []) (hclosing : Unescaped cs ')' n) :
    Unmatched cs (some ⟨.unmatchedClosing, some (n : Int)⟩) := by
  cases h.stacked with
  | nil hnone => exact .closing ⟨⟨hclosing, hnone⟩, h.le_unopened⟩

/-- At the end of a pattern the innermost open group is the one to be reported. -/
theorem Scanned.unmatched_end (h : Scanned cs cs.length opened) :
    Unmatched cs (ReversePolish.unmatched? (opened.map fun j : Nat => some (j : Int)) []) := by
  have hunopened : ∀ k, ¬ Unopened cs k := fun k hk =>
    absurd hk.1.lt_length (Nat.not_lt.mpr (h.le_unopened k hk))
  have hstacked := h.stacked
  cases opened with
  | nil =>
    cases hstacked with
    | nil hnone => exact .none hunopened hnone
  | cons j outer =>
    have hlast : LastUnclosed cs j := by
      refine ⟨?_, fun i hi => hstacked.le_head hi⟩
      cases hstacked with
      | cons hgroup _ _ => exact hgroup
    exact .opening hunopened hlast

/-- The kind of a character that stands on its own tells whether it is a parenthesis. -/
theorem kind_ofPlain_eq_opening_iff (position : Int) :
    (Token.ofPlain c position).kind = .opening ↔ c = '(' := by
  simp [Token.kind_ofPlain_eq_iff, Kind.ofOperator?_eq_some_iff]

theorem kind_ofPlain_eq_closing_iff (position : Int) :
    (Token.ofPlain c position).kind = .closing ↔ c = ')' := by
  simp [Token.kind_ofPlain_eq_iff, Kind.ofOperator?_eq_some_iff]

/-- **The scan finds the unmatched parenthesis**: from any place up to which nothing is to be
reported, the tokens of the rest of the pattern tell the one that is. -/
theorem unmatched_of_lexFrom {ts : List Token} (hcs : cs = before ++ rest)
    (hbefore : ¬ Hanging before) (hn : before.length = n) (h : Token.lexFrom n rest = .ok ts)
    (hscanned : Scanned cs n opened) :
    Unmatched cs (ReversePolish.unmatched? (opened.map fun j : Nat => some (j : Int)) ts) := by
  induction rest using Token.reading_induction generalizing before n opened ts with
  | nil =>
    cases h
    rw [List.append_nil] at hcs
    subst hcs hn
    exact hscanned.unmatched_end
  | lone => cases h
  | escaped c rest ih =>
    obtain ⟨us, hus, rfl⟩ := map_eq_ok.mp h
    rw [ReversePolish.unmatched?_operand (Token.isOperand_ofEscaped c n)]
    have hfirst : ∀ d, d ≠ '\\' → ¬ Unescaped cs d n := by
      intro d hd hunescaped
      rw [hcs, ← hn, unescaped_append_iff] at hunescaped
      exact hd hunescaped.1
    have hsecond : ∀ d, ¬ Unescaped cs d (n + 1) := by
      intro d
      rw [hcs, ← hn]
      exact not_unescaped_append hbefore
    have hread := (hscanned.plain (hfirst _ (by decide)) (hfirst _ (by decide))).plain (hsecond _)
      (hsecond _)
    have hlength : (before ++ ['\\', c]).length = n + 1 + 1 := by simp [hn]
    exact ih (by simp [hcs]) (not_hanging_append_escape hbefore) hlength hus hread
  | plain c rest hc ih =>
    rw [Token.lexFrom_plain hc] at h
    obtain ⟨us, hus, rfl⟩ := map_eq_ok.mp h
    have hat : ∀ d, Unescaped cs d n ↔ d = c := by
      intro d
      rw [hcs, ← hn, unescaped_append_iff]
      exact and_iff_left hbefore
    have hlength : (before ++ [c]).length = n + 1 := by simp [hn]
    have hrest : ∀ {opened}, Scanned cs (n + 1) opened → Unmatched cs
        (ReversePolish.unmatched? (opened.map fun j : Nat => some (j : Int)) us) :=
      ih (by simp [hcs]) (not_hanging_concat hc) hlength hus
    by_cases hopening : c = '('
    · rw [ReversePolish.unmatched?_opening ((kind_ofPlain_eq_opening_iff n).mpr hopening),
        Token.position_ofPlain]
      exact hrest (hscanned.opening ((hat _).mpr hopening.symm))
    · by_cases hclosing : c = ')'
      · have hkind := (kind_ofPlain_eq_closing_iff n).mpr hclosing
        have hunescaped := (hat _).mpr hclosing.symm
        cases opened with
        | nil =>
          rw [List.map_nil, ReversePolish.unmatched?_closing_nil hkind, Token.position_ofPlain]
          exact hscanned.unmatched_closing hunescaped
        | cons j outer =>
          rw [List.map_cons, ReversePolish.unmatched?_closing_cons hkind]
          exact hrest (hscanned.closing hunescaped)
      · rw [ReversePolish.unmatched?_other (mt (kind_ofPlain_eq_opening_iff n).mp hopening)
          (mt (kind_ofPlain_eq_closing_iff n).mp hclosing)]
        exact hrest (hscanned.plain (fun h => hopening ((hat _).mp h).symm)
          fun h => hclosing ((hat _).mp h).symm)

end Pattern

end RegexStepper

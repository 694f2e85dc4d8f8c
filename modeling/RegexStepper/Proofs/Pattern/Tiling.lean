import RegexStepper.Proofs.Pattern.Escapes
import RegexStepper.Proofs.Positions

/-!
# Tokens tile the pattern

`Token.ReadFrom` tells from which characters a token is read, without a lexer: one that is no
backslash, or a backslash and one more. `Token.Tiles` cuts a pattern at given places into such
stretches, one for each token and none left out, and gives each token the place of its stretch.

Headlines:
* `Token.lexFrom_eq_ok_iff`: the lexer finds the tokens that tile a pattern, and no other ones do;
* **`tokens_tile_pattern`**: a pattern is refused iff it ends in an odd run of backslashes, is tiled
  by its tokens otherwise, and is read on its own whatever stands behind it.
-/

namespace RegexStepper

namespace Token

open Pattern

variable {cs span rest : List Char} {bounds : List Nat} {n m : Nat} {t : Token} {ts : List Token}

/-! ## One token -/

/-- The operators, each with its sign. -/
def signs : List (Char × Kind) :=
  [('|', .union), ('*', .star), ('+', .plus), ('?', .optional), ('(', .opening), (')', .closing)]

/-- The characters that a token is read from. -/
inductive ReadFrom : List Char → Token → Prop where
  | operator {c : Char} {kind : Kind} (position : Option Int) :
    (c, kind) ∈ signs → ReadFrom [c] ⟨kind, some c.toString, position⟩
  | plain {c : Char} (position : Option Int) :
    c ≠ '\\' → (∀ kind, (c, kind) ∉ signs) → ReadFrom [c] ⟨.literal, some c.toString, position⟩
  | epsilon (position : Option Int) : ReadFrom ['\\', 'e'] ⟨.epsilon, none, position⟩
  | escaped {c : Char} (position : Option Int) :
    c ≠ 'e' → ReadFrom ['\\', c] ⟨.literal, some c.toString, position⟩

theorem ofOperator?_eq_some_iff_mem {c : Char} {kind : Kind} :
    Kind.ofOperator? c = some kind ↔ (c, kind) ∈ signs :=
  Kind.ofOperator?_eq_some_iff

theorem readFrom_ofPlain {c : Char} (hc : c ≠ '\\') (position : Int) :
    ReadFrom [c] (ofPlain c position) := by
  unfold ofPlain
  split
  · rename_i kind hkind
    exact .operator _ (ofOperator?_eq_some_iff_mem.mp hkind)
  · rename_i hnone
    refine .plain _ hc fun kind hkind => ?_
    rw [← ofOperator?_eq_some_iff_mem, hnone] at hkind
    cases hkind

theorem readFrom_ofEscaped (c : Char) (position : Int) :
    ReadFrom ['\\', c] (ofEscaped c position) := by
  unfold ofEscaped
  split
  · rename_i hc
    rw [hc]
    exact .epsilon _
  · rename_i hc
    exact .escaped _ hc

theorem ReadFrom.length_pos (h : ReadFrom span t) : 0 < span.length := by
  cases h <;> simp

/-- The lexer reads the token from its characters. -/
theorem ReadFrom.lexFrom (h : ReadFrom span t) (ht : t.position = some (n : Int)) :
    Token.lexFrom n span = .ok [t] := by
  cases h with
  | operator position hmem =>
    obtain rfl := ht
    have hkind := ofOperator?_eq_some_iff_mem.mpr hmem
    rw [lexFrom_plain (by rintro rfl; cases hkind), ofPlain, hkind]
    rfl
  | @plain c position hc hnone =>
    obtain rfl := ht
    have hkind : Kind.ofOperator? c = none :=
      Option.eq_none_iff_forall_ne_some.mpr fun kind hkind =>
        hnone kind (ofOperator?_eq_some_iff_mem.mp hkind)
    rw [lexFrom_plain hc, ofPlain, hkind]
    rfl
  | epsilon position =>
    obtain rfl := ht
    rfl
  | escaped position hc =>
    obtain rfl := ht
    rw [lexFrom_escaped, ofEscaped, if_neg hc]
    rfl

/-! ## All tokens -/

/-- The places `bounds` cut the characters `cs`, from the first place on, into stretches that the
tokens are read from in their order. A token stands where its stretch begins, and the last stretch
ends with the last character. -/
inductive Tiles (cs : List Char) : List Nat → List Token → Prop where
  | nil : Tiles cs [cs.length] []
  | cons {n m : Nat} {bounds : List Nat} {t : Token} {ts : List Token} :
    n < m → t.position = some (n : Int) → ReadFrom (cs.extract n m) t →
    Tiles cs (m :: bounds) ts → Tiles cs (n :: m :: bounds) (t :: ts)

namespace Tiles

theorem ascending (h : Tiles cs bounds ts) : bounds.Pairwise (· < ·) := by
  induction h with
  | nil => exact List.pairwise_singleton _ _
  | cons hlt _ _ _ ih =>
    refine List.pairwise_cons.mpr ⟨fun k hk => ?_, ih⟩
    rcases List.mem_cons.mp hk with rfl | hk
    · exact hlt
    · exact Nat.lt_trans hlt ((List.pairwise_cons.mp ih).1 k hk)

/-- The tokens stand at the places but for the last one, which is the end. -/
theorem positions_eq (h : Tiles cs bounds ts) :
    ts.map Token.position = bounds.dropLast.map fun n : Nat => some (n : Int) := by
  induction h with
  | nil => rfl
  | cons _ ht _ _ ih =>
    rw [List.map_cons, ht, ih]
    rfl

/-- The last place is the end. -/
theorem getLast?_eq (h : Tiles cs bounds ts) : bounds.getLast? = some cs.length := by
  induction h with
  | nil => rfl
  | cons _ _ _ _ ih => exact ih

theorem le_length (h : Tiles cs (n :: bounds) ts) : n ≤ cs.length := by
  generalize hplaces : n :: bounds = places at h
  induction h generalizing n bounds with
  | nil =>
    obtain ⟨rfl, _⟩ := List.cons.inj hplaces
    exact Nat.le_refl _
  | cons hlt _ _ _ ih =>
    obtain ⟨rfl, _⟩ := List.cons.inj hplaces
    exact Nat.le_trans (Nat.le_of_lt hlt) (ih rfl)

end Tiles

/-- The characters from one place on are those up to a second one and those from there on. -/
theorem extract_append_drop (hnm : n ≤ m) : cs.extract n m ++ cs.drop m = cs.drop n := by
  calc cs.extract n m ++ cs.drop m
      = (cs.drop n).take (m - n) ++ (cs.drop n).drop (m - n) := by
        rw [List.extract_eq_take_drop, List.drop_drop, Nat.add_sub_cancel' hnm]
    _ = cs.drop n := List.take_append_drop _ _

theorem length_extract_of_le (hm : m ≤ cs.length) : (cs.extract n m).length = m - n := by
  rw [List.extract_eq_take_drop, List.length_take, List.length_drop]
  omega

/-- What tiles a pattern is found by the lexer. -/
theorem Tiles.lexFrom (h : Tiles cs (n :: bounds) ts) : Token.lexFrom n (cs.drop n) = .ok ts := by
  induction ts generalizing n bounds with
  | nil =>
    cases h
    rw [List.drop_length]
    rfl
  | cons t ts ih =>
    cases h with
    | @cons _ m bounds _ _ hlt ht hread hrest =>
      have hlength : n + (cs.extract n m).length = m := by
        rw [length_extract_of_le hrest.le_length]
        omega
      rw [← extract_append_drop (Nat.le_of_lt hlt), lexFrom_append (hread.lexFrom ht), hlength,
        ih hrest]
      rfl

/-- The characters of a token are one stretch, and those behind them are tiled. -/
theorem exists_tiles_cons (hn : n ≤ cs.length) (hdrop : cs.drop n = span ++ rest)
    (hread : ReadFrom span t) (ht : t.position = some (n : Int))
    (hrest : ∀ m, m = n + span.length → m ≤ cs.length → cs.drop m = rest →
      ∃ bounds, Tiles cs (m :: bounds) ts) : ∃ bounds, Tiles cs (n :: bounds) (t :: ts) := by
  have hlength := congrArg List.length hdrop
  rw [List.length_drop, List.length_append] at hlength
  have hspan : cs.extract n (n + span.length) = span := by
    rw [List.extract_eq_take_drop, hdrop, Nat.add_sub_cancel_left, List.take_left]
  have hbehind : cs.drop (n + span.length) = rest := by
    rw [← List.drop_drop, hdrop, List.drop_left]
  obtain ⟨bounds, hbounds⟩ := hrest _ rfl (by omega) hbehind
  exact ⟨_, .cons (Nat.lt_add_of_pos_right hread.length_pos) ht (hspan.symm ▸ hread) hbounds⟩

/-- What the lexer finds tiles the pattern. -/
theorem exists_tiles (hn : n ≤ cs.length) (h : lexFrom n (cs.drop n) = .ok ts) :
    ∃ bounds, Tiles cs (n :: bounds) ts := by
  generalize hrest : cs.drop n = rest at h
  induction rest using reading_induction generalizing n ts with
  | nil =>
    cases h
    obtain rfl : n = cs.length := Nat.le_antisymm hn (List.drop_eq_nil_iff.mp hrest)
    exact ⟨[], .nil⟩
  | lone => cases h
  | escaped c rest ih =>
    obtain ⟨us, hus, rfl⟩ := map_eq_ok.mp h
    refine exists_tiles_cons hn hrest (readFrom_ofEscaped c n) (position_ofEscaped c n) ?_
    rintro _ rfl hle hbehind
    exact ih hle hbehind hus
  | plain c rest hc ih =>
    rw [lexFrom_plain hc] at h
    obtain ⟨us, hus, rfl⟩ := map_eq_ok.mp h
    refine exists_tiles_cons hn hrest (readFrom_ofPlain hc n) (position_ofPlain c n) ?_
    rintro _ rfl hle hbehind
    exact ih hle hbehind hus

/-- **The tokens of a pattern are those that tile it.** -/
theorem lexFrom_eq_ok_iff :
    Token.lexFrom 0 cs = .ok ts ↔ ∃ bounds, Tiles cs (0 :: bounds) ts := by
  constructor
  · exact exists_tiles (Nat.zero_le _)
  · rintro ⟨bounds, hbounds⟩
    exact hbounds.lexFrom

/-! ## Refusals -/

/-- **The lexer refuses a pattern iff it hangs.** -/
theorem lexFrom_eq_error_iff (position : Nat) :
    (∃ fault, Token.lexFrom position cs = .error fault) ↔ Hanging cs := by
  constructor
  · rintro ⟨fault, hfault⟩
    by_contra hhanging
    obtain ⟨ts, hts⟩ := @exists_lexFrom cs position hhanging
    cases hfault.symm.trans hts
  · exact fun h => ⟨_, lexFrom_of_hanging h⟩

/-- What stands further along is refused there. -/
theorem lexFrom_shift_error {position : Nat} {fault : Fault}
    (h : Token.lexFrom position cs = .error fault) (n : Nat) :
    Token.lexFrom (position + n) cs = .error (fault.shift n) := by
  have hhanging := (lexFrom_eq_error_iff position).mp ⟨fault, h⟩
  have hpos : 0 < cs.length := by
    refine List.length_pos_iff.mpr ?_
    rintro rfl
    exact not_hanging_nil hhanging
  rw [lexFrom_of_hanging hhanging] at h ⊢
  cases h
  have hplace : position + n + cs.length - 1 = position + cs.length - 1 + n := by omega
  rw [hplace, Int.natCast_add]
  rfl

end Token

/-! ## Main result -/

open Token

variable {ts : List Token}

/-- **Tokens tile the pattern.** It is refused iff it ends in an odd run of backslashes. Otherwise
its tokens are the ones that tile it from its start: their positions ascend strictly, from 0 on
unless there is nothing to read, and cut the pattern into the stretches that they are read from.
With anything written behind it, its tokens come first, and then those of the rest, or what the rest
is refused for, as far along as the pattern is long. -/
theorem tokens_tile_pattern (p : String) :
    ((∃ fault, ofPattern p = .error fault) ↔ Pattern.Hanging p.toList) ∧
    (∀ ts, ofPattern p = .ok ts ↔ ∃ bounds, Tiles p.toList (0 :: bounds) ts) ∧
    ∀ ts, ofPattern p = .ok ts →
      (∃ places : List Nat, ts.map Token.position = places.map (fun n : Nat => some (n : Int)) ∧
        places.Pairwise (· < ·) ∧ (p ≠ "" → places.head? = some 0)) ∧
      ∀ q,
        (∀ us, ofPattern q = .ok us → ofPattern (p ++ q) = .ok (ts ++ us.map (shift p.length))) ∧
        ∀ fault, ofPattern q = .error fault →
          ofPattern (p ++ q) = .error (fault.shift p.length) := by
  refine ⟨lexFrom_eq_error_iff 0, fun ts => lexFrom_eq_ok_iff, fun ts hts => ⟨?_, fun q => ?_⟩⟩
  · obtain ⟨bounds, hbounds⟩ := lexFrom_eq_ok_iff.mp hts
    refine ⟨_, hbounds.positions_eq, hbounds.ascending.sublist (List.dropLast_sublist _), ?_⟩
    intro hp
    cases bounds with
    | nil =>
      have hlength : 0 = p.toList.length := Option.some.inj hbounds.getLast?_eq
      exact absurd (String.toList_eq_nil_iff.mp (List.length_eq_zero_iff.mp hlength.symm)) hp
    | cons m bounds => rfl
  · have happend : ofPattern (p ++ q) = (ts ++ ·) <$> Token.lexFrom (0 + p.length) q.toList := by
      unfold ofPattern
      rw [String.toList_append, lexFrom_append hts, String.length_toList]
    refine ⟨fun us hus => ?_, fun fault hfault => ?_⟩
    · rw [happend, lexFrom_shift hus]
      rfl
    · rw [happend, lexFrom_shift_error hfault]
      rfl

/-- A literal backslash before the empty string, and two patterns behind them, of which the first
starts with a character that is not escaped any more and the second is refused. -/
theorem tokens_tile_pattern_escapes :
    ∃ ts bounds, ofPattern "a\\\\\\e(" = .ok ts ∧
      Tiles "a\\\\\\e(".toList (0 :: bounds) ts ∧
      ts.map Token.position = [some 0, some 1, some 3, some 5] ∧
      ofPattern ("a\\\\\\e(" ++ "e*") =
        .ok (ts ++ [⟨.literal, some "e", some 6⟩, ⟨.star, some "*", some 7⟩]) ∧
      ofPattern ("a\\\\\\e(" ++ "b\\") = refuse .unterminatedEscape (some 7) := by
  have hts : ofPattern "a\\\\\\e(" = .ok _ := rfl
  obtain ⟨_, htiles, hread⟩ := tokens_tile_pattern "a\\\\\\e("
  obtain ⟨bounds, hbounds⟩ := (htiles _).mp hts
  obtain ⟨_, hbehind⟩ := hread _ hts
  exact ⟨_, bounds, hts, hbounds, rfl, (hbehind "e*").1 _ rfl, (hbehind "b\\").2 _ rfl⟩

end RegexStepper

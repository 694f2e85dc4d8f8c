import RegexStepper.Proofs.ReversePolish.Postorder

/-!
# Joining a valid tree

Writing out the concatenations of a pattern finds those of its tree: between two factors the first
ends an expression and the second begins one, and nowhere else do such tokens meet
(`Tree.joinAfter_spelling`). So `Tree.joined`, the tree with the tokens that are written there, is
what the reordering reads, and with it comes the meaning of the pattern
(`Tree.ofTokens_of_spells`).
-/

namespace RegexStepper

namespace Token

/-- The concatenation written between two tokens, if one is implied. -/
def link (left right : Token) : List Token :=
  if junction left right then [concatBefore right] else []

variable {left right : Token}

theorem joinAfter_cons (left right : Token) (rest : List Token) :
    joinAfter left (right :: rest) = link left right ++ right :: joinAfter right rest := by
  unfold link
  rw [joinAfter]
  split <;> rfl

theorem link_of_ends_of_begins (hl : left.kind.endsExpression = true)
    (hr : right.kind.beginsExpression = true) : link left right = [concatBefore right] :=
  if_pos (Bool.and_eq_true_iff.mpr ⟨hl, hr⟩)

theorem link_of_not_ends (h : left.kind.endsExpression = false) : link left right = [] := by
  refine if_neg fun hj => ?_
  rw [(Bool.and_eq_true_iff.mp hj).1] at h
  cases h

theorem link_of_not_begins (h : right.kind.beginsExpression = false) : link left right = [] := by
  refine if_neg fun hj => ?_
  rw [(Bool.and_eq_true_iff.mp hj).2] at h
  cases h

/-- After a token that ends nothing, a list is joined as on its own. -/
theorem joinAfter_eq_join (h : left.kind.endsExpression = false) (ts : List Token) :
    joinAfter left ts = join ts := by
  cases ts with
  | nil => rfl
  | cons first rest => rw [joinAfter_cons, link_of_not_ends h]; rfl

/-- So it is as after the start of a group. -/
theorem join_eq_joinAfter (ts : List Token) : join ts = joinAfter ⟨.opening, none, none⟩ ts :=
  (joinAfter_eq_join rfl ts).symm

/-- What holds of the tokens and of the concatenations before them holds of the joined list. -/
theorem forall_mem_joinAfter {P : Token → Prop} {ts : List Token} (h : ∀ t ∈ ts, P t)
    (hconcat : ∀ t ∈ ts, P (concatBefore t)) (left : Token) : ∀ t ∈ joinAfter left ts, P t := by
  induction ts generalizing left with
  | nil => exact fun t ht => absurd ht List.not_mem_nil
  | cons right rest ih =>
    have hrest := ih (fun t ht => h t (List.mem_cons_of_mem right ht))
      (fun t ht => hconcat t (List.mem_cons_of_mem right ht)) right
    intro t ht
    rw [joinAfter_cons] at ht
    rcases List.mem_append.mp ht with ht | ht
    · unfold link at ht
      split at ht
      · rw [List.mem_singleton.mp ht]
        exact hconcat right List.mem_cons_self
      · exact absurd ht List.not_mem_nil
    · rcases List.mem_cons.mp ht with rfl | ht
      · exact h t List.mem_cons_self
      · exact hrest t ht

theorem forall_mem_join {P : Token → Prop} {ts : List Token} (h : ∀ t ∈ ts, P t)
    (hconcat : ∀ t ∈ ts, P (concatBefore t)) : ∀ t ∈ join ts, P t := by
  rw [join_eq_joinAfter]
  exact forall_mem_joinAfter h hconcat _

theorem mem_joinAfter {t : Token} {ts : List Token} (left : Token) (h : t ∈ ts) :
    t ∈ joinAfter left ts := by
  induction ts generalizing left with
  | nil => exact absurd h List.not_mem_nil
  | cons right rest ih =>
    rw [joinAfter_cons]
    refine List.mem_append_right _ ?_
    rcases List.mem_cons.mp h with rfl | h
    · exact List.mem_cons_self
    · exact List.mem_cons_of_mem _ (ih right h)

/-- Joining drops no token. -/
theorem mem_join {t : Token} {ts : List Token} (h : t ∈ ts) : t ∈ join ts := by
  rw [join_eq_joinAfter]
  exact mem_joinAfter _ h

/-- Before a token that begins nothing, a list is joined as on its own. -/
theorem joinAfter_concat (h : right.kind.beginsExpression = false) (left : Token)
    (ts : List Token) : joinAfter left (ts ++ [right]) = joinAfter left ts ++ [right] := by
  induction ts generalizing left with
  | nil => rw [List.nil_append, joinAfter_cons, link_of_not_begins h]; rfl
  | cons first rest ih =>
    rw [List.cons_append, joinAfter_cons, joinAfter_cons, ih, List.append_assoc, List.cons_append]

end Token

namespace Tree

open Token

/-- The tree with its concatenations at the places where joining writes them. -/
def joined : Tree → Tree
  | operand t => operand t
  | group opening body closing => group opening body.joined closing
  | quantified body operator => quantified body.joined operator
  | concat left _ right => concat left.joined (concatBefore right.first) right.joined
  | union left operator right => union left.joined operator right.joined

theorem level_joined (tree : Tree) : tree.joined.level = tree.level := by
  cases tree <;> rfl

theorem regex_joined (tree : Tree) : tree.joined.regex = tree.regex := by
  induction tree with
  | operand t => rfl
  | group opening body closing ih => exact ih
  | quantified body operator ih => rw [joined, regex, ih, regex]
  | concat left operator right ihl ihr => rw [joined, regex, ihl, ihr, regex]
  | union left operator right ihl ihr => rw [joined, regex, ihl, ihr, regex]

theorem valid_joined {tree : Tree} (h : tree.Valid) : tree.joined.Valid := by
  induction tree with
  | operand t => exact h
  | group opening body closing ih => exact ⟨h.1, h.2.1, ih h.2.2⟩
  | quantified body operator ih =>
    obtain ⟨hkind, hlevel, hbody⟩ := h
    exact ⟨hkind, (level_joined body).trans hlevel, ih hbody⟩
  | concat left operator right ihl ihr =>
    obtain ⟨_, hleft, hright, hl, hr⟩ := h
    exact ⟨rfl, fun heq => hleft ((level_joined left).symm.trans heq),
      (level_joined right).trans hright, ihl hl, ihr hr⟩
  | union left operator right ihl ihr =>
    obtain ⟨hkind, hright, hl, hr⟩ := h
    exact ⟨hkind, fun heq => hright ((level_joined right).symm.trans heq), ihl hl, ihr hr⟩

/-- **Joining finds the concatenations of a tree**, and none at its ends but before its first
token. -/
theorem joinAfter_spelling {tree : Tree} (h : tree.Valid) (before : Token) (rest : List Token) :
    joinAfter before (tree.spelling ++ rest) =
      link before tree.first ++ tree.joined.tokens ++ joinAfter tree.last rest := by
  induction tree generalizing before rest with
  | operand t => simp [spelling, joined, tokens, first, last, joinAfter_cons]
  | group opening body closing ih =>
    obtain ⟨hopening, hclosing, hbody⟩ := h
    have hin : link opening body.first = [] := link_of_not_ends (by rw [hopening]; rfl)
    have hout : link body.last closing = [] := link_of_not_begins (by rw [hclosing]; rfl)
    simp only [spelling, joined, tokens, first, last, List.cons_append, List.append_assoc,
      joinAfter_cons, ih hbody, hin, hout, List.nil_append]
  | quantified body operator ih =>
    obtain ⟨hkind, _, hbody⟩ := h
    have hout : link body.last operator = [] := by
      refine link_of_not_begins ?_
      rcases Kind.isQuantifier_iff.mp hkind with hkind | hkind | hkind <;> rw [hkind] <;> rfl
    simp only [spelling, joined, tokens, first, last, List.append_assoc, List.singleton_append,
      joinAfter_cons, ih hbody, hout, List.nil_append]
  | concat left operator right ihl ihr =>
    obtain ⟨_, _, _, hl, hr⟩ := h
    have hlink : link left.last right.first = [concatBefore right.first] :=
      link_of_ends_of_begins (endsExpression_last hl) (beginsExpression_first hr)
    simp only [spelling, joined, tokens, first, last, List.append_assoc, ihl hl, ihr hr, hlink,
      List.cons_append, List.nil_append]
  | union left operator right ihl ihr =>
    obtain ⟨hkind, _, hl, hr⟩ := h
    have hin : link operator right.first = [] := link_of_not_ends (by rw [hkind]; rfl)
    have hout : link left.last operator = [] := link_of_not_begins (by rw [hkind]; rfl)
    simp only [spelling, joined, tokens, first, last, List.append_assoc, List.cons_append,
      joinAfter_cons, ihl hl, ihr hr, hin, hout, List.nil_append]

/-- What a valid tree spells is joined into its tokens. -/
theorem join_spelling {tree : Tree} (h : tree.Valid) :
    join tree.spelling = tree.joined.tokens := by
  have hjoin := joinAfter_spelling h ⟨.opening, none, none⟩ []
  rwa [← join_eq_joinAfter, link_of_not_ends rfl, List.append_nil, joinAfter, List.append_nil,
    List.nil_append] at hjoin

/-- **What the grammar derives is reordered**, and evaluates to its meaning. -/
theorem ofTokens_of_spells {ts : List Token} {r : Regex} (h : Spells ts r) :
    ∃ output, ReversePolish.ofTokens (join ts) = .ok output ∧
      ReversePolish.regex? output = some r := by
  obtain ⟨tree, hvalid, rfl, rfl⟩ := h
  refine ⟨tree.joined.postorder, ?_, ?_⟩
  · rw [join_spelling hvalid]
    exact ofTokens_tokens (valid_joined hvalid)
  · rw [ReversePolish.regex?_eq_some_iff, evaluate?_postorder (valid_joined hvalid), regex_joined]

end Tree

end RegexStepper

import RegexStepper.Token

/-!
# Regular expressions and what they match

The meaning of a pattern: `Regex.Matches` says which sequences of symbols an expression matches, and
`ReversePolish.regex?` reads an expression off a token list in reverse Polish order, if the list has
one.
-/

namespace RegexStepper

/-- A regular expression over symbols. -/
inductive Regex where
  | epsilon
  | symbol (s : String)
  | concat (left right : Regex)
  | union (left right : Regex)
  | star (body : Regex)
  | plus (body : Regex)
  | optional (body : Regex)
deriving DecidableEq, Repr

namespace Regex

/-- The expression of a symbol that may be absent. -/
def ofSymbol? : Option String → Regex
  | none => epsilon
  | some s => symbol s

/-- The sequences of symbols that an expression matches. -/
inductive Matches : Regex → List String → Prop where
  | epsilon : Matches epsilon []
  | symbol (s : String) : Matches (symbol s) [s]
  | concat {r₁ r₂ : Regex} {v w : List String} :
    Matches r₁ v → Matches r₂ w → Matches (concat r₁ r₂) (v ++ w)
  | unionLeft {r₁ r₂ : Regex} {w : List String} : Matches r₁ w → Matches (union r₁ r₂) w
  | unionRight {r₁ r₂ : Regex} {w : List String} : Matches r₂ w → Matches (union r₁ r₂) w
  | starNone {r : Regex} : Matches (star r) []
  | starMore {r : Regex} {v w : List String} :
    Matches r v → Matches (star r) w → Matches (star r) (v ++ w)
  | plus {r : Regex} {v w : List String} :
    Matches r v → Matches (star r) w → Matches (plus r) (v ++ w)
  | optionalNone {r : Regex} : Matches (optional r) []
  | optionalSome {r : Regex} {w : List String} : Matches r w → Matches (optional r) w

/-- The symbols of a text: one for each character. -/
def symbols (text : List Char) : List String :=
  text.map Char.toString

/-! ## Matching, by the form of the expression -/

theorem matches_epsilon_iff {w : List String} : Matches epsilon w ↔ w = [] :=
  ⟨fun | .epsilon => rfl, fun h => h ▸ .epsilon⟩

theorem matches_symbol_iff {s : String} {w : List String} : Matches (symbol s) w ↔ w = [s] :=
  ⟨fun | .symbol _ => rfl, fun h => h ▸ .symbol s⟩

theorem matches_concat_iff {r₁ r₂ : Regex} {w : List String} :
    Matches (concat r₁ r₂) w ↔ ∃ u v, Matches r₁ u ∧ Matches r₂ v ∧ w = u ++ v :=
  ⟨fun | .concat hu hv => ⟨_, _, hu, hv, rfl⟩, fun ⟨_, _, hu, hv, hw⟩ => hw ▸ .concat hu hv⟩

theorem matches_union_iff {r₁ r₂ : Regex} {w : List String} :
    Matches (union r₁ r₂) w ↔ Matches r₁ w ∨ Matches r₂ w := by
  constructor
  · intro h
    cases h with
    | unionLeft h => exact Or.inl h
    | unionRight h => exact Or.inr h
  · rintro (h | h)
    · exact .unionLeft h
    · exact .unionRight h

theorem matches_star_iff {r : Regex} {w : List String} :
    Matches (star r) w ↔ w = [] ∨ ∃ u v, Matches r u ∧ Matches (star r) v ∧ w = u ++ v := by
  constructor
  · intro h
    cases h with
    | starNone => exact Or.inl rfl
    | starMore hu hv => exact Or.inr ⟨_, _, hu, hv, rfl⟩
  · rintro (rfl | ⟨u, v, hu, hv, rfl⟩)
    · exact .starNone
    · exact .starMore hu hv

/-- What holds of no repetition and is kept by one more in front holds of any number of them. -/
theorem star_induction {r : Regex} {P : List String → Prop} {w : List String} (hnone : P [])
    (hmore : ∀ u v, Matches r u → P v → P (u ++ v)) (h : Matches (star r) w) : P w := by
  generalize hs : star r = s at h
  induction h with
  | starNone => exact hnone
  | starMore hu _ _ ih =>
    cases hs
    exact hmore _ _ hu (ih rfl)
  | _ => cases hs

theorem matches_plus_iff {r : Regex} {w : List String} :
    Matches (plus r) w ↔ ∃ u v, Matches r u ∧ Matches (star r) v ∧ w = u ++ v :=
  ⟨fun | .plus hu hv => ⟨_, _, hu, hv, rfl⟩, fun ⟨_, _, hu, hv, hw⟩ => hw ▸ .plus hu hv⟩

theorem matches_optional_iff {r : Regex} {w : List String} :
    Matches (optional r) w ↔ w = [] ∨ Matches r w := by
  constructor
  · intro h
    cases h with
    | optionalNone => exact Or.inl rfl
    | optionalSome h => exact Or.inr h
  · rintro (rfl | h)
    · exact .optionalNone
    · exact .optionalSome h

end Regex

namespace ReversePolish

/-- The expressions on a stack after one more token, top first; none if it lacks operands or is no
token of reverse Polish order. -/
def push? (t : Token) (stack : List Regex) : Option (List Regex) :=
  match t.kind, stack with
  | .literal, rest => some (Regex.ofSymbol? t.value :: rest)
  | .epsilon, rest => some (.epsilon :: rest)
  | .concat, r₂ :: r₁ :: rest => some (.concat r₁ r₂ :: rest)
  | .union, r₂ :: r₁ :: rest => some (.union r₁ r₂ :: rest)
  | .star, r :: rest => some (.star r :: rest)
  | .plus, r :: rest => some (.plus r :: rest)
  | .optional, r :: rest => some (.optional r :: rest)
  | _, _ => none

/-- The expressions on a stack after a list of tokens. -/
def evaluate? (stack : List Regex) : List Token → Option (List Regex)
  | [] => some stack
  | t :: rest => (push? t stack).bind fun stack => evaluate? stack rest

/-- The expression that a token list in reverse Polish order stands for, if it stands for one. -/
def regex? (tokens : List Token) : Option Regex :=
  match evaluate? [] tokens with
  | some [r] => some r
  | _ => none

theorem regex?_eq_some_iff {tokens : List Token} {r : Regex} :
    regex? tokens = some r ↔ evaluate? [] tokens = some [r] := by
  unfold regex?
  constructor
  · intro h
    split at h
    · rename_i heq
      obtain rfl := Option.some.inj h
      exact heq
    · cases h
  · intro h
    rw [h]

theorem evaluate?_append (stack : List Regex) (ts us : List Token) :
    evaluate? stack (ts ++ us) = (evaluate? stack ts).bind fun stack => evaluate? stack us := by
  induction ts generalizing stack with
  | nil => rfl
  | cons t rest ih =>
    rw [List.cons_append, evaluate?, evaluate?]
    cases push? t stack with
    | none => rfl
    | some next => exact ih next

end ReversePolish

end RegexStepper

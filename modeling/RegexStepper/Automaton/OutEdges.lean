import RegexStepper.Symbol
import Std.Data.TreeMap.Lemmas

/-!
# Transitions and the index of those that leave a state

An automaton is a list of transitions between state ids. `OutEdges` keeps such a list by source, so
that a step need not read it all. Headline: `leaving_ofList`, the index answers as a filter of the
list would.
-/

namespace RegexStepper

/-- An arrow between two state ids, taken on `symbol`. -/
structure Transition where
  source : Int
  target : Int
  symbol : Symbol
deriving DecidableEq, Repr

namespace Transition

/-- A transition that consumes nothing. -/
def isEpsilon (t : Transition) : Bool :=
  t.symbol.isNone

/-- How the symbol of a transition is shown. -/
def label (t : Transition) : String :=
  t.symbol.label

/-- The transition between the renamed ids. -/
def rename (f : Int → Int) (t : Transition) : Transition :=
  ⟨f t.source, f t.target, t.symbol⟩

/-- How many different transitions a list holds. -/
def countDistinct (ts : List Transition) : Nat :=
  ts.eraseDups.length

end Transition

/-- A transition list kept by source, with its length. -/
structure OutEdges where
  bySource : Std.TreeMap Int (List Transition)
  count : Nat

namespace OutEdges

/-- Adds a transition before those of the same source. -/
def insert (bySource : Std.TreeMap Int (List Transition)) (t : Transition) :
    Std.TreeMap Int (List Transition) :=
  bySource.insert t.source (t :: bySource.getD t.source [])

/-- The index of a transition list. -/
def ofList (ts : List Transition) : OutEdges where
  bySource := ts.foldr (fun t m => insert m t) ∅
  count := ts.length

/-- The transitions from `id` on `symbol`, in the order of the list. -/
def leaving (edges : OutEdges) (id : Int) (symbol : Symbol) : List Transition :=
  (edges.bySource.getD id []).filter (·.symbol == symbol)

/-! ## The index and the list -/

@[simp] theorem count_ofList (ts : List Transition) : (ofList ts).count = ts.length := rfl

theorem getD_bySource_ofList (ts : List Transition) (id : Int) :
    (ofList ts).bySource.getD id [] = ts.filter (·.source == id) := by
  unfold ofList
  simp only
  induction ts with
  | nil => simp
  | cons t rest ih =>
    rw [List.foldr_cons, insert, Std.TreeMap.getD_insert]
    by_cases h : t.source = id
    · subst h
      simp [ih]
    · have hc : compare t.source id ≠ .eq := fun e => h (Std.LawfulEqCmp.eq_of_compare e)
      rw [if_neg hc, ih, List.filter_cons_of_neg (by simpa using h)]

/-- **The index answers as the list does**: the transitions from `id` on `symbol`, in order. -/
theorem leaving_ofList (ts : List Transition) (id : Int) (symbol : Symbol) :
    (ofList ts).leaving id symbol = ts.filter fun t => t.source == id && t.symbol == symbol := by
  unfold leaving
  rw [getD_bySource_ofList, List.filter_filter]
  congr 1
  funext t
  exact Bool.and_comm _ _

theorem mem_leaving_ofList {ts : List Transition} {id : Int} {symbol : Symbol} {t : Transition} :
    t ∈ (ofList ts).leaving id symbol ↔ t ∈ ts ∧ t.source = id ∧ t.symbol = symbol := by
  rw [leaving_ofList, List.mem_filter, Bool.and_eq_true, beq_iff_eq, beq_iff_eq]

end OutEdges

end RegexStepper

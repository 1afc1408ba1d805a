import Goalbase.State.Unify

/-!
# Goalbase.Goal

Goals: what a search is asked to make true.

Mathematical meaning: a goal relates a state to the items it can lead to, see `Goalbase.Stream`. Goals
are data, so that everything about a search can be stated by recursion on its goal. Recursive
relations are endless disjunctions: `endless f k` is the disjunction of `f k` and, delayed, of
`endless f (k + 1)`.
-/

namespace Goalbase

inductive Goal where
  | succeed
  | fail
  | equal (a b : Term)
  | constraint (c : Constraint)
  /-- One of several goals; all start from the same state. -/
  | or (goals : List Goal)
  /-- The second goal on every state that the first one leads to. -/
  | and (first second : Goal)
  /-- A goal that is applied when it is first pulled. -/
  | delay (goal : Goal)
  /-- One of the goals from the `k`-th of a family on. -/
  | endless (family : Nat → Goal) (k : Nat)
  /-- A goal whose applications are observed. -/
  | labelled (label : String) (goal : Goal)

namespace Goal

/-- Conjunction of a list, to the left; the empty one succeeds. -/
def andAll : List Goal → Goal
  | [] => .succeed
  | g :: rest => rest.foldl .and g

/-- The term is `start`, or `start + 1`, and so on, wrapping around at the end of signed words. -/
def count (t : Term) (start : Int64) : Goal :=
  .endless (fun k => .equal t (.lit (.word (start + .ofNat k)))) 0

def forever (g : Goal) : Goal := .endless (fun _ => g) 0

end Goal

end Goalbase

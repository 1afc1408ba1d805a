import Goalbase.Goal

/-!
# Goalbase.Tree

Goal trees: the form of a goal that can be stored.

Mathematical meaning: a tree is built from equalities, conjunctions, disjunctions and named
constraints. A constraint that was built in this process carries its goal `inline`; a stored one has
only its name and parameters, and `stored` is what remains of a tree after it was written and read
back. Inline goals are the same only if they have the same handle.
-/

namespace Goalbase

/-- The goal that a constraint carries, and its identity. -/
structure Inline where
  handle : Handle
  goal : Goal

inductive Tree where
  | equal (a b : Term)
  | and (children : List Tree)
  | or (children : List Tree)
  | constraint (name : String) (params : List Term) (inline? : Option Inline)

namespace Tree

def kind : Tree → String
  | .equal _ _ => "equal"
  | .and _ => "and"
  | .or _ => "or"
  | .constraint _ _ _ => "constraint"

mutual

def hasInline : Tree → Bool
  | .equal _ _ => false
  | .and children => anyInline children
  | .or children => anyInline children
  | .constraint _ _ inline? => inline?.isSome

def anyInline : List Tree → Bool
  | [] => false
  | t :: rest => hasInline t || anyInline rest

end

mutual

def stored : Tree → Tree
  | .equal a b => .equal a b
  | .and children => .and (storedAll children)
  | .or children => .or (storedAll children)
  | .constraint name params _ => .constraint name params none

def storedAll : List Tree → List Tree
  | [] => []
  | t :: rest => stored t :: storedAll rest

end

def sameParams : List Term → List Term → Bool
  | [], [] => true
  | a :: as, b :: bs => a.same b && sameParams as bs
  | _, _ => false

def sameInline : Option Inline → Option Inline → Bool
  | none, none => true
  | some a, some b => a.handle == b.handle
  | _, _ => false

mutual

def same : Tree → Tree → Bool
  | .equal a b, .equal c d => a.same c && b.same d
  | .and ts, .and us => sameAll ts us
  | .or ts, .or us => sameAll ts us
  | .constraint m ps i, .constraint n qs j => m == n && sameParams ps qs && sameInline i j
  | _, _ => false

def sameAll : List Tree → List Tree → Bool
  | [], [] => true
  | t :: ts, u :: us => same t u && sameAll ts us
  | _, _ => false

end

/-- A named constraint with the given check, which waits for the variables among its parameters. -/
def custom (handle : Handle) (name : String) (params : List Term) (check : Check)
    (labels : List String) : Tree :=
  .constraint name params (some ⟨handle,
    .constraint (.declare handle (params.filterMap Term.var?) check labels)⟩)

end Tree

end Goalbase

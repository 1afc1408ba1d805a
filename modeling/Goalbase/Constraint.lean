import Goalbase.Term

/-!
# Goalbase.Constraint

Constraints on variables that wait until their variables have values.

Mathematical meaning: a constraint is a check together with the variables it waits for. A check is
either a `test`, which looks at what some terms resolve to and accepts, rejects or faults, or it
asks for pairs of terms to be unified one after the other. Two constraints are the same only if they
have the same handle, whatever they check.
-/

namespace Goalbase

/-- The reason why a branch of a search was abandoned as unanswerable. -/
inductive Fault where
  /-- Two values without a common order were to be ordered. -/
  | incomparable (first second : Literal)

namespace Fault

def message : Fault → String
  | .incomparable a b =>
    "Values must be of the same type to be ordered: " ++ a.text ++ " and " ++ b.text

def same : Fault → Fault → Bool
  | .incomparable a b, .incomparable c d => a.same c && b.same d

end Fault

inductive Verdict where
  | accept
  | reject
  | fault (reason : Fault)

inductive Check where
  | test (terms : List Term) (judge : List Term → Verdict)
  /-- Unifies the two terms of each pair, in order. -/
  | unify (pairs : List (Term × Term))

namespace Check

def always : Check := .test [] fun _ => .accept

def never : Check := .test [] fun _ => .reject

def fails (reason : Fault) : Check := .test [] fun _ => .fault reason

/-- Rejects two terms that resolve to the same term. -/
def distinct (a b : Term) : Check :=
  .test [a, b] fun
    | [x, y] => if x.same y then .reject else .accept
    | _ => .reject

/-- Accepts a term that resolves to an even signed word. -/
def even (a : Term) : Check :=
  .test [a] fun
    | [.lit x] =>
      match x.signedWord? with
      | some z => if z % 2 = 0 then .accept else .reject
      | none => .reject
    | _ => .reject

/-- Makes every term equal to the first one, beginning with the first itself. -/
def allEqual : List Term → Check
  | [] => .unify []
  | t :: rest => .unify ((t :: rest).map fun u => (t, u))

def terms : Check → List Term
  | .test terms _ => terms
  | .unify pairs => pairs.flatMap fun p => [p.1, p.2]

end Check

/-- The identity of a constraint: the number under which a caller built it, or the serial number
given to one that was rebuilt from its name. -/
inductive Handle where
  | built (number : Nat)
  | rebuilt (serial : Nat)
  deriving DecidableEq

/-- A check, the variables that must have values before it runs, and the labels that a run of it is
reported under. -/
structure Constraint where
  handle : Handle
  vars : List Var
  check : Check
  labels : List String

namespace Constraint

/-- The variables in order of first occurrence. -/
def distinctVars (vars : List Var) : List Var :=
  vars.foldl (fun done x => if x ∈ done then done else done ++ [x]) []

/-- A constraint that waits for each of the variables once. -/
def declare (handle : Handle) (vars : List Var) (check : Check) (labels : List String) :
    Constraint :=
  ⟨handle, distinctVars vars, check, labels⟩

def same (c d : Constraint) : Bool := c.handle == d.handle

end Constraint

end Goalbase

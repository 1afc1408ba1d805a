import Goalbase.Order
import Goalbase.Tree

/-!
# Goalbase.Relations

The relations that come with the language: disequality, order and membership.

Mathematical meaning: `notEq` rejects two terms once both have values and the values are equal.
`compare?` accepts two terms whose values compare as expected and faults on values without an order;
terms whose declared kinds rule out an order are refused when the constraint is built. `oneOf` is a
disjunction of equalities, one for each distinct term.
-/

namespace Goalbase

inductive BuildError where
  | incomparableKinds (first second : Kind)
  | expectation (given : Int)
  | arity (name : String) (expected actual : Nat)
  | parameter (name reason : String)

namespace BuildError

def message : BuildError → String
  | .incomparableKinds a b => "Cannot compare values of type " ++ a.name ++ " and " ++ b.name
  | .expectation n => "Invalid comparison result: " ++ toString n ++ " (expected -1, 0 or 1)"
  | .arity name expected actual =>
    "Constraint " ++ name ++ " takes " ++ toString expected ++ " parameters, got "
      ++ toString actual
  | .parameter name reason => "Invalid parameter for " ++ name ++ ": " ++ reason

end BuildError

namespace Relations

def notEqName : String := "not_eq"

def compareName : String := "cmp"

def notEqJudge : List Term → Verdict
  | [.lit a, .lit b] => if a.same b then .reject else .accept
  | _ => .accept

/-- Accepts two literals that compare as expected; without an order it faults. -/
def compareJudge (expected : Int) : List Term → Verdict
  | [.lit a, .lit b] =>
    match a.compare? b with
    | none => .fault (.incomparable a b)
    | some o => if signOf o = expected then .accept else .reject
  | _ => .reject

def notEq (handle : Handle) (a b : Term) : Tree :=
  .custom handle notEqName [a, b] (.test [a, b] notEqJudge) []

/-- The first term compares to the second as expected: `-1` is less, `0` equal, `1` greater. -/
def compare? (handle : Handle) (a b : Term) (expected : Int64) : Except BuildError Tree :=
  if ¬(-1 ≤ expected.toInt ∧ expected.toInt ≤ 1) then .error (.expectation expected.toInt)
  else if a.kind.comparable b.kind then
    .ok (.custom handle compareName [a, b, .lit (.word expected)]
      (.test [a, b] (compareJudge expected.toInt)) [])
  else .error (.incomparableKinds a.kind b.kind)

/-- The terms without repetitions, in order of first occurrence. -/
def distinctTerms (terms : List Term) : List Term :=
  terms.foldl (fun done t => if done.any t.same then done else done ++ [t]) []

def oneOf (x : Var) (terms : List Term) : Tree :=
  .or ((distinctTerms terms).map fun t => .equal (.var x) t)

def buildNotEq (handle : Handle) : List Term → Except BuildError Tree
  | [a, b] => .ok (notEq handle a b)
  | params => .error (.arity notEqName 2 params.length)

def buildCompare (handle : Handle) : List Term → Except BuildError Tree
  | [a, b, .lit e] =>
    match e.signedWord? with
    | some n => compare? handle a b (.ofInt n)
    | none =>
      .error (.parameter compareName ("expected an integer comparison result, got " ++ e.text))
  | [_, _, .var x] =>
    .error (.parameter compareName ("expected an integer comparison result, got " ++ x.display))
  | params => .error (.arity compareName 3 params.length)

end Relations

end Goalbase

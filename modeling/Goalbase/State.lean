import Goalbase.Constraint
import Goalbase.Table

/-!
# Goalbase.State

States of a search: what the variables are bound to and which constraints are pending.

Mathematical meaning: bindings form chains of variables that end in a literal or in an unbound
variable; `resolve` gives the end. A chain visits no variable twice, so as many steps as there are
bindings reach its end. The constraints of an unbound variable are kept on the variable at the end
of its chain. A state with a fault is final.
-/

namespace Goalbase

structure State where
  bindings : Table Var Term
  pending : Table Var (List Constraint)
  fault : Option Fault

namespace State

def empty : State := ⟨.empty, .empty, none⟩

def isFaulted (s : State) : Bool := s.fault.isSome

def walk (s : State) : (steps : Nat) → Term → Term
  | 0, t => t
  | _ + 1, .lit a => .lit a
  | steps + 1, .var x =>
    match s.bindings.get? x with
    | some t => s.walk steps t
    | none => .var x

/-- The end of a term's chain: a literal or an unbound variable. -/
def resolve (s : State) (t : Term) : Term := s.walk s.bindings.size t

def valueOf? (s : State) (x : Var) : Option Literal := (s.resolve (.var x)).literal?

def hasValue (s : State) (x : Var) : Bool := (s.valueOf? x).isSome

/-- The variables with a binding of their own. -/
def boundVars (s : State) : List Var := s.bindings.keys

/-- The constraints kept on a variable, in the order they came. -/
def constraintsOf (s : State) (x : Var) : List Constraint := (s.pending.get? x).getD []

def hasConstraint (s : State) (x : Var) : Bool := !(s.constraintsOf x).isEmpty

def withFault (s : State) (reason : Fault) : State := { s with fault := some reason }

def bind (s : State) (x : Var) (t : Term) : State := { s with bindings := s.bindings.insert x t }

/-- Whether a constraint of the same identity is kept on the variable. -/
def keeps (s : State) (x : Var) (c : Constraint) : Bool := (s.constraintsOf x).any c.same

/-- Appends constraints to those kept on a variable; nothing is entered for none. -/
def keep (s : State) (x : Var) (cs : List Constraint) : State :=
  if cs.isEmpty then s else { s with pending := s.pending.insert x (s.constraintsOf x ++ cs) }

/-- The variable on which a constraint on `x` is kept: the end of its chain, or `x` itself once it
has a value. -/
def keeper (s : State) (x : Var) : Var :=
  match s.resolve (.var x) with
  | .var y => y
  | .lit _ => x

/-- Registers a constraint for a variable, once on each chain. -/
def addConstraint (s : State) (x : Var) (c : Constraint) : State :=
  if s.keeps (s.keeper x) c then s else s.keep (s.keeper x) [c]

/-- Points an unbound variable at another one. Its constraints follow, except those that the other
one keeps already. -/
def pointAt (s : State) (x target : Var) : State :=
  (s.bind x (.var target)).keep target
    ((s.constraintsOf x).filter fun c => !s.keeps target c)

def isReady (s : State) (c : Constraint) : Bool := c.vars.all s.hasValue

/-- The constraints that a new value of a variable wakes. -/
def woken (s : State) (x : Var) : List Constraint := (s.constraintsOf x).filter s.isReady

def sameBindings (a b : Table Var Term) : Bool :=
  a.size == b.size && a.entries.all fun e =>
    match b.get? e.1 with
    | some t => e.2.same t
    | none => false

def sameConstraints : List Constraint → List Constraint → Bool
  | [], [] => true
  | c :: cs, d :: ds => c.same d && sameConstraints cs ds
  | _, _ => false

def sameFault : Option Fault → Option Fault → Bool
  | none, none => true
  | some a, some b => a.same b
  | _, _ => false

/-- Equality of states: as many variables with constraints, and every list of the first state equal
to the one of the second. -/
def same (s t : State) : Bool :=
  sameBindings s.bindings t.bindings && sameFault s.fault t.fault
    && s.pending.size == t.pending.size
    && s.pending.entries.all fun e => sameConstraints e.2 (t.constraintsOf e.1)

end State

end Goalbase

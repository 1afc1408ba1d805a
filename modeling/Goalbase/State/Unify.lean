import Goalbase.Trace

/-!
# Goalbase.State.Unify

Unification and the constraints it wakes.

Mathematical meaning: `unifyAt depth` unifies two terms where checks may unify further terms to a
nesting of `depth`; `Outcome.exhausted` says that the nesting was too deep and is no answer. Each
nested unification that wakes a check has first given a value to a variable that had none, so the
terms mentioned by the arguments and by the pending constraints bound the nesting, and
`State.unify` takes that bound.

The two variables of an alias keep the narrower of their kinds at the end of the chain: the wider
one is pointed at the narrower one.
-/

namespace Goalbase

inductive Outcome where
  | reached (s : State)
  | rejected
  | exhausted

def Outcome.state? : Outcome → Option State
  | .reached s => some s
  | .rejected => none
  | .exhausted => none

abbrev Unifier := State → Term → Term → Traced Outcome

def Unifier.pairs (unify : Unifier) : List (Term × Term) → State → Traced Outcome
  | [], s => .pure (.reached s)
  | (a, b) :: rest, s =>
    (unify s a b).bind fun
      | .reached t => unify.pairs rest t
      | o => .pure o

def Constraint.runWith (unify : Unifier) (c : Constraint) (s : State) : Traced Outcome :=
  .after (.checked c s)
    (match c.check with
    | .test terms judge =>
      match judge (terms.map s.resolve) with
      | .accept => .pure (.reached s)
      | .reject => .pure .rejected
      | .fault reason => .pure (.reached (s.withFault reason))
    | .unify pairs => unify.pairs pairs s)

/-- Runs constraint after constraint until one rejects or faults. -/
def Unifier.wake (unify : Unifier) : List Constraint → State → Traced Outcome
  | [], s => .pure (.reached s)
  | c :: cs, s =>
    if s.isFaulted then .pure (.reached s)
    else
      (c.runWith unify s).bind fun
        | .reached t => unify.wake cs t
        | o => .pure o

/-- Binds an unbound variable to a literal of its kind and runs the constraints that this wakes. -/
def Unifier.assign (unify : Unifier) (s : State) (x : Var) (a : Literal) : Traced Outcome :=
  if x.kind.admits a then
    unify.wake ((s.bind x (.lit a)).woken x) (s.bind x (.lit a))
  else .pure .rejected

/-- One level of unification; checks use the given unifier. -/
def State.unifyWith (nested : Unifier) (s : State) (a b : Term) : Traced Outcome :=
  if s.isFaulted then .pure (.reached s)
  else
    match s.resolve a, s.resolve b with
    | .lit x, .lit y => .pure (if x.same y then .reached s else .rejected)
    | .var x, .lit y => nested.assign s x y
    | .lit x, .var y => nested.assign s y x
    | .var x, .var y =>
      if x = y then .pure (.reached s)
      else
        match x.kind.meet? y.kind with
        | none => .pure .rejected
        | some k => .pure (.reached (if y.kind = k then s.pointAt x y else s.pointAt y x))

def State.unifyAt : (depth : Nat) → Unifier
  | 0 => State.unifyWith fun _ _ _ => .pure .exhausted
  | depth + 1 => State.unifyWith (State.unifyAt depth)

namespace State

def varsOf (terms : List Term) : List Var := terms.filterMap Term.var?

/-- The variables mentioned by the pending constraints and their checks, repetitions included. -/
def pendingVars (s : State) : List Var :=
  s.pending.entries.flatMap fun e => e.2.flatMap fun c => c.vars ++ varsOf c.check.terms

def room (s : State) (terms : List Term) : Nat := (varsOf terms ++ s.pendingVars).length

/-- Unifies two terms, together with all unifications that woken checks ask for. -/
def unifyFully : Unifier := fun s a b => unifyAt (s.room [a, b]) s a b

/-- Unifies two terms: the state reached, or `none` when they cannot be made equal or a woken
constraint rejects. -/
def unify (s : State) (a b : Term) : Traced (Option State) :=
  (s.unifyFully a b).map Outcome.state?

def check (s : State) (c : Constraint) : Traced (Option State) :=
  (c.runWith unifyFully s).map Outcome.state?

end State

end Goalbase

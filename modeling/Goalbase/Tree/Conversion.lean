import Goalbase.Registry

/-!
# Goalbase.Tree.Conversion

From goal trees to goals.

Mathematical meaning: `Tree.toGoal?` is the recursive reading of a tree: a conjunction of a node's
children in their order, a disjunction likewise, an equality, the goal that a constraint carries, or
the goal of what its registered constructor builds. `Tree.convert?` computes the same with the open
nodes held in a list of frames, so that the depth of a tree is bounded by nothing else. Constraints
that are rebuilt take their handles from a serial number, in order of the leaves.
-/

namespace Goalbase

inductive ConversionError where
  | unknownConstraint (name : String)
  | build (name : String) (cause : BuildError)
  | missingGoal (name : String)
  /-- A conversion that ended with a number of goals other than one. -/
  | malformed (goals : Nat)

namespace ConversionError

def message : ConversionError → String
  | .unknownConstraint name => "Unknown constraint: " ++ name
  | .build name cause => "Constraint " ++ name ++ " could not be rebuilt: " ++ cause.message
  | .missingGoal name => "Constructor for " ++ name ++ " did not return an executable constraint"
  | .malformed n => "Malformed goal tree: conversion ended with " ++ toString n ++ " goals"

/-- Whether the same tree will fail in the same way until the registry is mended. -/
def isFatal : ConversionError → Bool
  | .build _ _ => false
  | _ => true

end ConversionError

namespace Tree

abbrev Converted (α : Type) := Except ConversionError (α × Nat)

/-- The goal of a constraint: the one it carries, or the one that is rebuilt from its name. -/
def constraintGoal? (registry : Registry) (serial : Nat) (name : String) (params : List Term) :
    Option Inline → Converted Goal
  | some i => .ok (i.goal, serial)
  | none =>
    match registry.get? name with
    | none => .error (.unknownConstraint name)
    | some build =>
      match build (.rebuilt serial) params with
      | .error cause => .error (.build name cause)
      | .ok (.constraint _ _ (some i)) => .ok (i.goal, serial + 1)
      | .ok _ => .error (.missingGoal name)

mutual

def toGoal? (registry : Registry) (serial : Nat) : Tree → Converted Goal
  | .equal a b => .ok (.equal a b, serial)
  | .and children =>
    match toGoals? registry serial children with
    | .error e => .error e
    | .ok (goals, serial) => .ok (.andAll goals, serial)
  | .or children =>
    match toGoals? registry serial children with
    | .error e => .error e
    | .ok (goals, serial) => .ok (.or goals, serial)
  | .constraint name params inline? => constraintGoal? registry serial name params inline?

def toGoals? (registry : Registry) (serial : Nat) : List Tree → Converted (List Goal)
  | [] => .ok ([], serial)
  | t :: rest =>
    match toGoal? registry serial t with
    | .error e => .error e
    | .ok (g, serial) =>
      match toGoals? registry serial rest with
      | .error e => .error e
      | .ok (gs, serial) => .ok (g :: gs, serial)

end

/-- How the goals of a frame are joined. -/
inductive Join where
  | only
  | and
  | or

/-- A node that is not yet finished: the children to visit and the goals of those visited, in
reverse. -/
structure Frame where
  join : Join
  pending : List Tree
  goals : List Goal

def Frame.finish? (f : Frame) : Option Goal :=
  match f.join with
  | .only => f.goals.head?
  | .and => some (.andAll f.goals.reverse)
  | .or => some (.or f.goals.reverse)

/-- A conversion under way: the open nodes, innermost first, the finished goals, in reverse, and the
next serial number. -/
structure Work where
  frames : List Frame
  output : List Goal
  serial : Nat

/-- A finished goal goes to the innermost open node or else to the output. -/
def Work.supply (frames : List Frame) (output : List Goal) (serial : Nat) : Option Goal → Work
  | none => ⟨frames, output, serial⟩
  | some g =>
    match frames with
    | [] => ⟨[], g :: output, serial⟩
    | f :: frames => ⟨{ f with goals := g :: f.goals } :: frames, output, serial⟩

/-- A frame for the outermost node; a leaf is converted at once. -/
def Work.start? (registry : Registry) (serial : Nat) : Tree → Except ConversionError Work
  | .and children => .ok ⟨[⟨.and, children, []⟩], [], serial⟩
  | .or children => .ok ⟨[⟨.or, children, []⟩], [], serial⟩
  | .equal a b => .ok ⟨[⟨.only, [], [.equal a b]⟩], [], serial⟩
  | .constraint name params inline? =>
    match constraintGoal? registry serial name params inline? with
    | .error e => .error e
    | .ok (g, serial) => .ok ⟨[⟨.only, [], [g]⟩], [], serial⟩

/-- One step on the innermost open node: it is finished, or its next child is visited. -/
def Work.step? (registry : Registry) (f : Frame) (frames : List Frame) (output : List Goal)
    (serial : Nat) : Except ConversionError Work :=
  match f.pending with
  | [] => .ok (.supply frames output serial f.finish?)
  | .and children :: rest => .ok ⟨⟨.and, children, []⟩ :: { f with pending := rest } :: frames,
      output, serial⟩
  | .or children :: rest => .ok ⟨⟨.or, children, []⟩ :: { f with pending := rest } :: frames,
      output, serial⟩
  | .equal a b :: rest =>
    .ok ⟨{ f with pending := rest, goals := .equal a b :: f.goals } :: frames, output, serial⟩
  | .constraint name params inline? :: rest =>
    match constraintGoal? registry serial name params inline? with
    | .error e => .error e
    | .ok (g, serial) =>
      .ok ⟨{ f with pending := rest, goals := g :: f.goals } :: frames, output, serial⟩

/-- Steps until no node is open; a conversion with exactly one goal succeeds. -/
def Work.run? (registry : Registry) : (steps : Nat) → Work → Converted Goal
  | _, ⟨[], [g], serial⟩ => .ok (g, serial)
  | _, ⟨[], output, _⟩ => .error (.malformed output.length)
  | 0, ⟨_ :: _, output, _⟩ => .error (.malformed output.length)
  | steps + 1, ⟨f :: frames, output, serial⟩ =>
    match Work.step? registry f frames output serial with
    | .error e => .error e
    | .ok work => work.run? registry steps

mutual

/-- How many steps a conversion takes: two for an inner node and one for a leaf. -/
def work : Tree → Nat
  | .equal _ _ => 1
  | .and children => workAll children + 2
  | .or children => workAll children + 2
  | .constraint _ _ _ => 1

def workAll : List Tree → Nat
  | [] => 0
  | t :: rest => work t + workAll rest

end

/-- The goal of a tree and the next serial number, without recursion on the tree. -/
def convert? (registry : Registry) (serial : Nat) (t : Tree) : Converted Goal :=
  match Work.start? registry serial t with
  | .error e => .error e
  | .ok work => work.run? registry t.work

end Tree

end Goalbase

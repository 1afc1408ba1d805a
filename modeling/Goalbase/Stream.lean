import Goalbase.Goal

/-!
# Goalbase.Stream

Streams of answers, merged fairly.

Mathematical meaning: an item is a state or, for a branch that was explored and rejected, a failure
marker. `Stream.step` does a bounded amount of work on a stream: it yields an item, ends, or makes
silent progress. A pull repeats steps until an item or the end; it need not return, for a stream may
go on for ever without an item, so `Stream.pull` takes a bound on the steps.

A merge rotates its streams, one item each. A bound stream alternates between its source and the
streams started from the source's states; markers and faulted states of the source pass by the goal.
-/

namespace Goalbase

/-- A state reached, or a marker for a rejected branch. -/
abbrev Item := Option State

inductive Stream where
  | items (rest : List Item)
  /-- An endless stream: the items of a family from the `k`-th on. -/
  | endless (family : Nat → Item) (k : Nat)
  /-- The stream of a goal that is not yet applied. -/
  | waiting (goal : Goal) (s : State)
  /-- A stream whose first pull is observed. -/
  | labelled (label : String) (inner : Stream)
  /-- A merge, the stream to be pulled next in front. -/
  | merge (queue : List Stream)
  /-- A goal on the states of a source, with the streams started so far. -/
  | bound (source : Option Stream) (goal : Goal) (started : List Stream) (sourceNext : Bool)

inductive Step where
  | item (i : Item) (rest : Stream)
  | silent (rest : Stream)
  | ended

namespace Stream

def nil : Stream := .items []

def once (i : Item) : Stream := .items [i]

def bind (t : Stream) (g : Goal) : Stream := .bound (some t) g [] true

end Stream

/-- The stream of a goal on a state, with what happens before the first pull. -/
def Goal.apply : Goal → State → Traced Stream
  | .succeed, s => .pure (.once (some s))
  | .fail, _ => .pure (.once none)
  | .equal a b, s => (s.unify a b).map .once
  | .constraint c, s =>
    let registered := c.vars.foldl (fun t x => t.addConstraint x c) s
    if s.isReady c then (registered.check c).map .once else .pure (.once (some registered))
  | .or goals, s => .pure (.merge (goals.map fun g => .waiting g s))
  | .and first second, s => (first.apply s).map fun t => t.bind second
  | .delay g, s => .pure (.waiting g s)
  | .endless family k, s =>
    .pure (.merge [.waiting (family k) s, .waiting (.delay (.endless family (k + 1))) s])
  | .labelled label g, s => .after (.applied label s) (g.apply s)

def Goal.run (g : Goal) : Traced Stream := g.apply .empty

namespace Stream

def mergeStep (behind : List Stream) : Step → Step
  | .item i t => .item i (.merge (behind ++ [t]))
  | .silent t => .silent (.merge (t :: behind))
  | .ended => .silent (.merge behind)

/-- What a bound stream does after a step of its source: a live state starts a stream. -/
def sourceStep (goal : Goal) (started : List Stream) (sourceNext : Bool) : Step → Traced Step
  | .item (some s) t =>
    if s.isFaulted then .pure (.item (some s) (.bound (some t) goal started false))
    else (goal.apply s).map fun u => .silent (.bound (some t) goal (started ++ [u]) false)
  | .item none t => .pure (.item none (.bound (some t) goal started false))
  | .silent t => .pure (.silent (.bound (some t) goal started sourceNext))
  | .ended => .pure (.silent (.bound none goal started false))

/-- What a bound stream does after a step of the first stream started. -/
def startedStep (source : Option Stream) (goal : Goal) (behind : List Stream) : Step → Step
  | .item i t => .item i (.bound source goal (behind ++ [t]) true)
  | .silent t => .silent (.bound source goal (t :: behind) false)
  | .ended => .silent (.bound source goal behind true)

def step : Stream → Traced Step
  | .items [] => .pure .ended
  | .items (i :: rest) => .pure (.item i (.items rest))
  | .endless family k => .pure (.item (family k) (.endless family (k + 1)))
  | .waiting g s => (g.apply s).map .silent
  | .labelled label t => .after (.opened label) (.pure (.silent t))
  | .merge [] => .pure .ended
  | .merge (t :: behind) => t.step.map (mergeStep behind)
  | .bound none _ [] _ => .pure .ended
  | .bound (some source) goal [] sourceNext => source.step.bind (sourceStep goal [] sourceNext)
  | .bound (some source) goal (t :: behind) true =>
    source.step.bind (sourceStep goal (t :: behind) true)
  | .bound source goal (t :: behind) _ => t.step.map (startedStep source goal behind)

end Stream

/-- The result of a pull: an answer and the rest of the stream, the end with the stream as it is
then, or a stream whose next answer was not found within the bound. -/
inductive Pull (α : Type) where
  | answer (a : α) (rest : Stream)
  | ended (rest : Stream)
  | unfinished (rest : Stream)

namespace Stream

/-- Steps until an item that `keep` turns into an answer, with what was observed `before`. -/
def pullOnto {α : Type} (keep : Item → Option α) (before : List Observation) :
    (steps : Nat) → Stream → Traced (Pull α)
  | 0, t => ⟨before, .unfinished t⟩
  | steps + 1, t =>
    let done := t.step
    match done.value with
    | .ended => ⟨before ++ done.trace, .ended t⟩
    | .silent u => pullOnto keep (before ++ done.trace) steps u
    | .item i u =>
      match keep i with
      | some a => ⟨before ++ done.trace, .answer a u⟩
      | none => pullOnto keep (before ++ done.trace) steps u

def pullWith {α : Type} (keep : Item → Option α) (steps : Nat) (t : Stream) : Traced (Pull α) :=
  pullOnto keep [] steps t

def pull (steps : Nat) (t : Stream) : Traced (Pull Item) := pullWith some steps t

def success? : Item → Option State
  | some s => if s.isFaulted then none else some s
  | none => none

def result? : Item → Option (Except Fault State)
  | some s =>
    match s.fault with
    | some reason => some (.error reason)
    | none => some (.ok s)
  | none => none

end Stream

/-- The results of a stream: its states up to the first fault, which ends them. -/
structure Results where
  stream : Option Stream

namespace Results

def ofStream (t : Stream) : Results := ⟨some t⟩

/-- A result and the results behind it, the end, or results not reached within the bound. -/
inductive Next where
  | state (s : State) (rest : Results)
  | fault (reason : Fault) (rest : Results)
  | ended (rest : Results)
  | unfinished (rest : Results)

def next (steps : Nat) (r : Results) : Traced Next :=
  match r.stream with
  | none => .pure (.ended ⟨none⟩)
  | some t =>
    (t.pullWith Stream.result? steps).map fun
      | .answer (.ok s) rest => .state s ⟨some rest⟩
      | .answer (.error reason) _ => .fault reason ⟨none⟩
      | .ended _ => .ended ⟨none⟩
      | .unfinished rest => .unfinished ⟨some rest⟩

end Results

end Goalbase

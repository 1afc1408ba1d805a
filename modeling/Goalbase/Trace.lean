import Goalbase.State

/-!
# Goalbase.Trace

What happens during a search, in order.

Mathematical meaning: `Traced α` is a value together with the observations made while it was
computed. `Traced.bind` runs one computation after another and joins their observations in that
order, so a trace is the order of evaluation.
-/

namespace Goalbase

inductive Observation where
  | checked (c : Constraint) (s : State)
  | applied (label : String) (s : State)
  | opened (label : String)

def Observation.labels : Observation → List String
  | .checked c _ => c.labels
  | .applied label _ => [label]
  | .opened label => [label]

/-- A value and what happened on the way to it. -/
structure Traced (α : Type) where
  trace : List Observation
  value : α

namespace Traced

variable {α β : Type}

def pure (a : α) : Traced α := ⟨[], a⟩

def observe (o : Observation) : Traced Unit := ⟨[o], ()⟩

def bind (t : Traced α) (f : α → Traced β) : Traced β :=
  ⟨t.trace ++ (f t.value).trace, (f t.value).value⟩

def map (f : α → β) (t : Traced α) : Traced β := ⟨t.trace, f t.value⟩

/-- The value, after something that happened before. -/
def after (o : Observation) (t : Traced α) : Traced α := ⟨o :: t.trace, t.value⟩

@[simp] theorem value_pure (a : α) : (pure a).value = a := rfl

@[simp] theorem trace_pure (a : α) : (pure a).trace = [] := rfl

@[simp] theorem value_bind (t : Traced α) (f : α → Traced β) :
    (t.bind f).value = (f t.value).value := rfl

@[simp] theorem trace_bind (t : Traced α) (f : α → Traced β) :
    (t.bind f).trace = t.trace ++ (f t.value).trace := rfl

@[simp] theorem value_map (f : α → β) (t : Traced α) : (t.map f).value = f t.value := rfl

@[simp] theorem trace_map (f : α → β) (t : Traced α) : (t.map f).trace = t.trace := rfl

def labels (trace : List Observation) : List String := trace.flatMap Observation.labels

end Traced

end Goalbase

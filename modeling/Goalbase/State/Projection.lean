import Goalbase.State

/-!
# Goalbase.State.Projection

What a state says about some variables.

Mathematical meaning: a projection pairs each selected variable with the term it resolves to, in
ascending order of the variables and each variable once. As JSON it is an object from names to
values, `null` where there is no value; of several variables with one name the last one counts.
-/

namespace Goalbase

namespace Projection

def set (x : Var) (t : Term) : List (Var × Term) → List (Var × Term)
  | [] => [(x, t)]
  | (y, u) :: rest =>
    match x.compare y with
    | .lt => (x, t) :: (y, u) :: rest
    | .eq => (x, t) :: rest
    | .gt => (y, u) :: set x t rest

/-- Whether every variable is less than all those behind it. -/
def Ascending (entries : List (Var × Term)) : Prop :=
  entries.Pairwise fun a b => a.1.compare b.1 = .lt

theorem mem_set {x : Var} {t : Term} {e : Var × Term} {entries : List (Var × Term)}
    (h : e ∈ set x t entries) : e = (x, t) ∨ e ∈ entries := by
  induction entries with
  | nil => simpa [set] using h
  | cons d rest ih =>
    obtain ⟨y, u⟩ := d
    simp only [set] at h
    split at h
    · simpa using h
    · simp only [List.mem_cons] at h ⊢
      cases h with
      | inl h => exact .inl h
      | inr h => exact .inr (.inr h)
    · simp only [List.mem_cons] at h ⊢
      cases h with
      | inl h => exact .inr (.inl h)
      | inr h =>
        cases ih h with
        | inl h => exact .inl h
        | inr h => exact .inr (.inr h)

theorem ascending_set (x : Var) (t : Term) (entries : List (Var × Term))
    (h : Ascending entries) : Ascending (set x t entries) := by
  induction entries with
  | nil => simp [set, Ascending]
  | cons d rest ih =>
    obtain ⟨y, u⟩ := d
    obtain ⟨hy, hrest⟩ := List.pairwise_cons.1 h
    simp only [set]
    split
    · rename_i hx
      refine List.pairwise_cons.2 ⟨fun e he => ?_, h⟩
      cases List.mem_cons.1 he with
      | inl e => rw [e]; exact hx
      | inr he => exact Var.compare_lt_trans hx (hy e he)
    · rename_i hx
      rw [(Var.compare_eq_iff x y).1 hx]
      exact List.pairwise_cons.2 ⟨hy, hrest⟩
    · rename_i hx
      refine List.pairwise_cons.2 ⟨fun e he => ?_, ih hrest⟩
      cases mem_set he with
      | inl e => rw [e, Var.compare_swap, hx]; rfl
      | inr he => exact hy e he

end Projection

/-- Variables and the terms they resolve to, in ascending order. -/
structure Projection where
  entries : List (Var × Term)
  ascending : Projection.Ascending entries

namespace Projection

def empty : Projection := ⟨[], .nil⟩

def insert (p : Projection) (x : Var) (t : Term) : Projection :=
  ⟨set x t p.entries, ascending_set x t p.entries p.ascending⟩

def ofList (entries : List (Var × Term)) : Projection :=
  entries.foldl (fun p e => p.insert e.1 e.2) empty

def size (p : Projection) : Nat := p.entries.length

def isEmpty (p : Projection) : Bool := p.entries.isEmpty

def get? (p : Projection) (x : Var) : Option Term := valueAt? x p.entries

def literal? (p : Projection) (x : Var) : Option Literal :=
  match p.get? x with
  | some t => t.literal?
  | none => none

/-- The value written for a term. -/
def valueOf : Term → Json
  | .lit a => a.json
  | .var _ => .null

/-- The projection as an object of values by name. -/
def toJson (p : Projection) : Json :=
  .object (Json.ordered (p.entries.map fun e => (e.1.name, valueOf e.2)))

end Projection

/-- The selected variables with the terms they resolve to; an empty selection stands for all
variables with a binding. -/
def State.project (s : State) (vars : List Var) : Projection :=
  .ofList ((if vars.isEmpty then s.boundVars else vars).map fun x => (x, s.resolve (.var x)))

end Goalbase

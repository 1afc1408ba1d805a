import Goalbase.Proofs.FairSearch
import Goalbase.Proofs.Unifying

/-!
# Goalbase.Proofs.Branches

The branches of a search.

A branch of a goal is a choice of one side at every disjunction: the list of the equalities and
constraints that are then met, in order. It does not depend on the state. Following a branch runs
its steps one after the other; it is given up at a failure and ends at a fault. The answers of a
goal are the states that its branches reach (`answers_eq_branches`).
-/

namespace Goalbase

/-- A step of a branch. -/
inductive Leaf where
  | equal (d e : Term)
  | constraint (c : Constraint)

def Leaf.run : Leaf → State → Traced Item
  | .equal d e, s => s.unify d e
  | .constraint c, s => s.post c

/-- Runs the steps of a branch. -/
def follow : List Leaf → State → Traced Item
  | [], s => .pure (some s)
  | l :: rest, s =>
    (l.run s).bind fun
      | some t => if t.isFaulted then .pure (some t) else follow rest t
      | none => .pure none

/-- The state that a branch leads to without a failure or a fault. -/
def reach (branch : List Leaf) (s : State) : Option State :=
  Stream.success? (follow branch s).value

namespace Goal

mutual

/-- The branches of a goal, in depth-first order. -/
def branches : Goal → List (List Leaf)
  | .succeed => [[]]
  | .fail => []
  | .equal d e => [[.equal d e]]
  | .constraint c => [[.constraint c]]
  | .or goals => branchesAny goals
  | .and first second => (branches first).flatMap fun b => (branches second).map (b ++ ·)
  | .delay goal => branches goal
  | .endless _ _ => []
  | .labelled _ goal => branches goal

def branchesAny : List Goal → List (List Leaf)
  | [] => []
  | goal :: rest => branches goal ++ branchesAny rest

end

theorem branchesAny_eq (goals : List Goal) : branchesAny goals = goals.flatMap branches := by
  induction goals with
  | nil => rfl
  | cons g rest ih => rw [branchesAny, ih, List.flatMap_cons]

end Goal

theorem reach_nil {s : State} (h : s.isFaulted = false) : reach [] s = some s :=
  Stream.success?_live h

theorem reach_cons (l : Leaf) (rest : List Leaf) (s : State) :
    reach (l :: rest) s = (Stream.success? (l.run s).value).bind (reach rest) := by
  simp only [reach, follow, Traced.value_bind]
  cases (l.run s).value with
  | none => rfl
  | some t =>
    cases ht : t.isFaulted with
    | true => simp [Stream.success?, ht]
    | false => simp [Stream.success?, ht, reach]

theorem reach_cons_some {l : Leaf} {rest : List Leaf} {s t : State} :
    reach (l :: rest) s = some t ↔
      ∃ u, (l.run s).value = some u ∧ u.isFaulted = false ∧ reach rest u = some t := by
  rw [reach_cons, Option.bind_eq_some_iff]
  simp only [success?_eq_some, and_assoc]

theorem reach_append {s : State} (h : s.isFaulted = false) (b b' : List Leaf) :
    reach (b ++ b') s = (reach b s).bind (reach b') := by
  induction b generalizing s with
  | nil => rw [List.nil_append, reach_nil h, Option.bind_some]
  | cons l b ih =>
    rw [List.cons_append, reach_cons, reach_cons, Option.bind_assoc]
    cases hl : Stream.success? (l.run s).value with
    | none => rfl
    | some t => exact ih (success?_eq_some.1 hl).2

theorem live_of_reach {b : List Leaf} {s t : State} (h : reach b s = some t) :
    t.isFaulted = false := (success?_eq_some.1 h).2

namespace Goal

theorem flatMap_reach {s : State} (h : s.isFaulted = false) (bs cs : List (List Leaf)) :
    ((bs.filterMap (reach · s)).flatMap fun t => cs.filterMap (reach · t))
      = (bs.flatMap fun b => cs.map (b ++ ·)).filterMap (reach · s) := by
  induction bs with
  | nil => rfl
  | cons b bs ih =>
    rw [List.flatMap_cons, List.filterMap_append, ← ih, List.filterMap_map, List.filterMap_cons]
    simp only [Function.comp_def, reach_append h]
    cases reach b s with
    | none => simp
    | some t => simp [List.flatMap_cons]

theorem reach_singleton (l : Leaf) (s : State) :
    reach [l] s = Stream.success? (l.run s).value := by
  rw [reach_cons]
  cases hl : Stream.success? (l.run s).value with
  | none => rfl
  | some t => exact reach_nil (success?_eq_some.1 hl).2

theorem live_run (l : Leaf) (s : State) :
    Stream.live [(l.run s).value] = [[l]].filterMap (reach · s) := by
  simp only [Stream.live, List.filterMap_cons, List.filterMap_nil, reach_singleton]

mutual

/-- The answers of a goal are the states its branches reach. -/
theorem answers_eq_branches : ∀ (g : Goal) {s : State}, s.isFaulted = false →
    g.answers s = g.branches.filterMap (reach · s)
  | .succeed, s, h => by
    simp only [answers, items, branches, Stream.live, List.filterMap_cons, List.filterMap_nil,
      reach_nil h, Stream.success?_live h]
  | .fail, s, h => rfl
  | .equal d e, s, h => live_run (.equal d e) s
  | .constraint c, s, h => live_run (.constraint c) s
  | .or goals, s, h => answersAny_eq_branches goals h
  | .and first second, s, h => by
    simp only [answers_and, branches, answers_eq_branches first h]
    rw [← flatMap_reach h]
    refine List.flatMap_congr fun t ht => ?_
    obtain ⟨b, -, hb⟩ := List.mem_filterMap.1 ht
    exact answers_eq_branches second (live_of_reach hb)
  | .delay goal, s, h => answers_eq_branches goal h
  | .endless _ _, s, h => rfl
  | .labelled _ goal, s, h => answers_eq_branches goal h

theorem answersAny_eq_branches : ∀ (goals : List Goal) {s : State}, s.isFaulted = false →
    Stream.live (itemsAny goals s) = (branchesAny goals).filterMap (reach · s)
  | [], s, h => rfl
  | goal :: rest, s, h => by
    rw [itemsAny, branchesAny, Stream.live, List.filterMap_append, List.filterMap_append,
      ← answers_eq_branches goal h, ← answersAny_eq_branches rest h]
    rfl

end

end Goal

end Goalbase

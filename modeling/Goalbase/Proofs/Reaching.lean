import Goalbase.Proofs.FairSearch
import Goalbase.Proofs.Unifying

/-!
# Goalbase.Proofs.Reaching

The states that operations lead to.

`Leads s t` says that a run of operations leads from `s` to `t`: unifications, registrations and
faults, where a check that is woken may itself be any such run. `Reachable K s` is narrower: checks
are those that constraints can have, and the constraints that are registered satisfy `K`. Either way
a state is reached by updates (`Leads.updates`, `Reachable.updates`), so what updates keep holds of
it. The operations of goals lead from state to state (`unify_leads`, `post_leads`).
-/

namespace Goalbase

namespace State

/-- A run of operations. What a woken check does is what the nested unifier does with the terms of
the check, and that may be any run of operations. -/
inductive Leads : State → State → Prop where
  | refl (s : State) : Leads s s
  | trans {s t u : State} (h : Leads s t) (h' : Leads t u) : Leads s u
  | register (s : State) (x : Var) (c : Constraint) : Leads s (s.addConstraint x c)
  | fault (s : State) (reason : Fault) : Leads s (s.withFault reason)
  | unify {nested : Unifier} (hn : ∀ u d e v, (nested u d e).value = .reached v → Leads u v)
      {s t : State} {a b : Term} (h : (s.unifyWith nested a b).value = .reached t) : Leads s t

/-- The states that come of the empty one by unification, registrations, faults and checks. -/
inductive Reachable (K : Constraint → Prop) : State → Prop where
  | empty : Reachable K empty
  | unify {s t : State} {a b : Term} (hs : Reachable K s) (h : (s.unify a b).value = some t) :
      Reachable K t
  | register {s : State} {c : Constraint} (hs : Reachable K s) (x : Var) (hc : K c) :
      Reachable K (s.addConstraint x c)
  | fault {s : State} (hs : Reachable K s) (reason : Fault) : Reachable K (s.withFault reason)
  | check {s t : State} {c : Constraint} (hs : Reachable K s) (h : (s.check c).value = some t) :
      Reachable K t

variable {K : Constraint → Prop} {s t : State} {a b : Term} {c : Constraint}

theorem Leads.updates (h : Leads s t) (hs : s.WellFormed) : Updates (fun _ => True) s t := by
  induction h with
  | refl s => exact .refl s
  | trans _ _ ih ih' =>
    have hst := ih hs
    exact hst.trans (ih' (hst.wellFormed hs))
  | register s x c => exact .single (.register s x trivial)
  | fault s reason => exact .single (.fault s reason)
  | unify _ h ih => exact Unifier.UpdatingBy.unifyWith (fun u v d e hu hv => ih u d e v hv hu) hs h

theorem Leads.wellFormed (h : Leads .empty s) : s.WellFormed :=
  (h.updates wellFormed_empty).wellFormed wellFormed_empty

theorem Reachable.updates (h : s.Reachable K) : Updates K .empty s := by
  induction h with
  | empty => exact .refl _
  | unify _ ht ih => exact ih.trans (unifyFully_updating (ih.wellFormed wellFormed_empty)
      (unify_eq_some.1 ht))
  | register _ x hc ih => exact ih.trans (.single (.register _ x hc))
  | fault _ reason ih => exact ih.trans (.single (.fault _ reason))
  | check _ ht ih => exact ih.trans (unifyFully_updating.runWith (ih.wellFormed wellFormed_empty)
      (check_eq_some.1 ht))

theorem Reachable.wellFormed (h : s.Reachable K) : s.WellFormed :=
  h.updates.wellFormed wellFormed_empty

/-! ## The operations of goals -/

theorem unifyAt_leads {depth : Nat} (h : (unifyAt depth s a b).value = .reached t) :
    Leads s t := by
  induction depth generalizing s t a b with
  | zero => exact .unify (fun _ _ _ _ hv => by cases hv) h
  | succ depth ih => exact .unify (fun _ _ _ _ hv => ih hv) h

theorem unify_leads (h : (s.unify a b).value = some t) : Leads s t :=
  unifyAt_leads (unify_eq_some.1 h)

theorem pairs_leads {pairs : List (Term × Term)}
    (h : (unifyFully.pairs pairs s).value = .reached t) : Leads s t := by
  induction pairs generalizing s with
  | nil => cases h; exact .refl _
  | cons p rest ih =>
    obtain ⟨u, hu, h⟩ := pairs_cons_reached.1 h
    exact .trans (unifyAt_leads hu) (ih h)

theorem check_leads (h : (s.check c).value = some t) : Leads s t := by
  have h := check_eq_some.1 h
  cases hc : c.check with
  | test terms judge =>
    rw [value_runWith_test hc] at h
    split at h
    · cases h; exact .refl _
    · cases h
    · cases h; exact .fault s _
  | unify pairs =>
    rw [value_runWith_unify hc] at h
    exact pairs_leads h

theorem register_leads (s : State) (c : Constraint) (xs : List Var) :
    Leads s (s.register c xs) := by
  induction xs generalizing s with
  | nil => exact .refl s
  | cons x xs ih => exact .trans (.register s x c) (ih _)

theorem post_leads (h : (s.post c).value = some t) : Leads s t := by
  simp only [post] at h
  split at h
  · exact .trans (register_leads s c c.vars) (check_leads h)
  · cases h
    exact register_leads s c c.vars

end State

end Goalbase

import Goalbase.Proofs.Observing
import Goalbase.Proofs.Waiting

/-!
# Goalbase.Proofs.Waking

How often the checks of waiting constraints run.

A unification runs the check of a constraint once if the constraint becomes ready on the way, and
not at all otherwise. `Orderly K s extra o` counts this for what `o` observes on the way from `s`:
no check runs more often than its constraint becomes ready, apart from the `extra` runs that were
asked for, and the check of a watched constraint runs as often as that, if a state without a fault
is reached. The counts of two parts add up (`Orderly.next`). A value asks for a run of each
constraint that it wakes, and these are those that it makes ready; so the count comes out for every
unification, nested wake-ups included (`unifyFully_ordered`), and for every step of a branch
(`Leaf.run_orderly`).
-/

namespace Goalbase

open State

/-! ## Counting runs -/

/-- Whether a run of the constraint's check was observed. -/
def Observation.isRun (c : Constraint) : Observation → Bool
  | .checked d _ => c.same d
  | .applied _ _ => false
  | .opened _ => false

/-- How many of the observations are runs of the constraint's check. -/
def runs (c : Constraint) (trace : List Observation) : Nat := trace.countP (Observation.isRun c)

/-- The most runs of the check that can have become due: one if the constraint is ready in the state
reached, and one if none is reached. -/
def ceiling (c : Constraint) : Item → Nat
  | some t => (t.isReady c).toNat
  | none => 1

theorem countP_cons_toNat {α : Type} (p : α → Bool) (a : α) (as : List α) :
    (a :: as).countP p = (p a).toNat + as.countP p := by
  rw [List.countP_cons, Nat.add_comm]
  cases p a <;> rfl

section Counts

variable {c d : Constraint} {s : State}

@[simp] theorem runs_nil (c : Constraint) : runs c [] = 0 := rfl

@[simp] theorem runs_append (c : Constraint) (trace trace' : List Observation) :
    runs c (trace ++ trace') = runs c trace + runs c trace' := List.countP_append

@[simp] theorem runs_checked (c d : Constraint) (s : State) (trace : List Observation) :
    runs c (.checked d s :: trace) = (c.same d).toNat + runs c trace := countP_cons_toNat _ _ _

theorem ceiling_le (c : Constraint) (i : Item) : ceiling c i ≤ 1 := by
  cases i with
  | none => exact Nat.le_refl 1
  | some t => exact Bool.toNat_le _

end Counts

/-- Checks run as often as their constraints become ready, not counting the extra runs. -/
structure Orderly (K : Constraint → Prop) (s : State) (extra : Constraint → Nat)
    (o : Traced Item) : Prop where
  at_most : ∀ c, K c → runs c o.trace + (s.isReady c).toNat ≤ ceiling c o.value + extra c
  at_least : ∀ c, K c → s.Watches c → ∀ t, o.value = some t → t.isFaulted = false →
    (t.isReady c).toNat + extra c ≤ runs c o.trace + (s.isReady c).toNat

/-- Nothing but what becomes ready is checked by the unifier. -/
def Unifier.Ordered (K : Constraint → Prop) (unify : Unifier) : Prop :=
  ∀ ⦃s d e⦄, s.Waiting → s.Pending K → Orderly K s (fun _ => 0) ((unify s d e).map Outcome.state?)

section Orderly

variable {K : Constraint → Prop} {s t : State} {extra extra' : Constraint → Nat}

theorem orderly_pure (h : ∀ c, t.isReady c = s.isReady c) :
    Orderly K s (fun _ => 0) (.pure (some t)) := by
  refine ⟨fun c _ => ?_, fun c _ _ u hu _ => ?_⟩
  · simp only [Traced.trace_pure, Traced.value_pure, ceiling, h c, runs_nil, Nat.zero_add,
      Nat.add_zero, Nat.le_refl]
  · cases hu
    simp only [Traced.trace_pure, h c, runs_nil, Nat.zero_add, Nat.add_zero, Nat.le_refl]

theorem orderly_stopped (K : Constraint → Prop) (s : State) (extra : Constraint → Nat) :
    Orderly K s extra (.pure none) :=
  ⟨fun c _ => by
    rw [Traced.trace_pure, runs_nil, Nat.zero_add]
    exact Nat.le_trans (Bool.toNat_le _) (Nat.le_add_right 1 _), fun _ _ _ _ h => by cases h⟩

theorem orderly_faulted (K : Constraint → Prop) (extra : Constraint → Nat)
    (h : s.isFaulted = true) : Orderly K s extra (.pure (some s)) := by
  refine ⟨fun c _ => ?_, fun c _ _ t ht hlive => ?_⟩
  · rw [Traced.trace_pure, runs_nil, Nat.zero_add]
    exact Nat.le_add_right _ _
  · cases ht
    rw [h] at hlive
    cases hlive

/-- The counts of a step and of what follows it add up. -/
theorem Orderly.next {o : Traced Outcome} {f : State → Traced Outcome}
    (h : Orderly K s extra (o.map Outcome.state?))
    (hf : ∀ u, o.value = .reached u → Updates K s u
      ∧ (∀ t, (f u).value = .reached t → u.Extends t)
      ∧ Orderly K u extra' ((f u).map Outcome.state?)) (hs : s.WellFormed) :
    Orderly K s (fun c => extra c + extra' c) ((o.next f).map Outcome.state?) := by
  by_cases hu : ∃ u, o.value = .reached u
  · obtain ⟨u, hu⟩ := hu
    obtain ⟨hsu, hut, hrest⟩ := hf u hu
    rw [Traced.next_reached hu]
    refine ⟨fun c hc => ?_, fun c hc hw t ht hlive => ?_⟩
    · have hfirst := h.at_most c hc
      have hrest := hrest.at_most c hc
      simp only [Traced.value_map, Traced.trace_map, hu, Outcome.state?, ceiling, runs_append]
        at hfirst hrest ⊢
      omega
    · have hlive' := (hut t (Outcome.state?_eq_some.1 ht)).live hlive
      have hfirst := h.at_least c hc hw u (by rw [Traced.value_map, hu]; rfl) hlive'
      have hrest := hrest.at_least c hc (hsu.watches hs hw) t ht hlive
      simp only [Traced.trace_map, runs_append] at hfirst hrest ⊢
      omega
  · rw [Traced.next_stopped (not_exists.1 hu)]
    refine ⟨fun c hc => Nat.le_trans (h.at_most c hc) (by omega), fun c hc hw t ht hlive => ?_⟩
    exact absurd ⟨t, Outcome.state?_eq_some.1 ht⟩ hu

/-- A run of a check is one that was asked for. -/
theorem Orderly.checked {o : Traced Item} (h : Orderly K s (fun _ => 0) o) (c : Constraint) :
    Orderly K s (fun d => (d.same c).toNat) (.after (.checked c s) o) := by
  refine ⟨fun d hd => ?_, fun d hd hw t ht hlive => ?_⟩
  · have hrest := h.at_most d hd
    simp only [Traced.after, runs_checked] at hrest ⊢
    omega
  · have hrest := h.at_least d hd hw t ht hlive
    simp only [Traced.after, runs_checked] at hrest ⊢
    omega

end Orderly

/-! ## Unification -/

section Ordered

variable {K : Constraint → Prop} {nested : Unifier} (hn : nested.Updating)
  (ho : nested.Ordered K) {s : State}

include hn ho

theorem pairs_orderly {pairs : List (Term × Term)} (hs : s.Waiting) (hp : s.Pending K) :
    Orderly K s (fun _ => 0) ((nested.pairs pairs s).map Outcome.state?) := by
  induction pairs generalizing s with
  | nil => exact orderly_pure fun _ => rfl
  | cons p rest ih =>
    rw [pairs_cons]
    have hnext : Orderly K s (fun _ => 0 + 0)
        (((nested s p.1 p.2).next (nested.pairs rest)).map Outcome.state?) := by
      refine (ho hs hp).next (fun u hu => ?_) hs.toWellFormed
      have hsu : Updates K s u := hn hs.toWellFormed hu
      have hwu : u.Waiting := (hn hs.toWellFormed hu).waiting hs
      refine ⟨hsu, fun t ht => ?_, ih hwu (hsu.pending hp)⟩
      exact (hn.pairs (K := K) hwu.toWellFormed ht).extends hwu.toWellFormed
    exact hnext

theorem runWith_orderly (hs : s.Waiting) (hp : s.Pending K) (c : Constraint) :
    Orderly K s (fun d => (d.same c).toNat) ((c.runWith nested s).map Outcome.state?) := by
  cases hc : c.check with
  | test terms judge =>
    simp only [Constraint.runWith, hc]
    cases judge (terms.map s.resolve) with
    | accept => exact (orderly_pure fun _ => rfl).checked c
    | reject => exact (orderly_stopped K s _).checked c
    | fault reason =>
      have hfault : Orderly K s (fun _ => 0) (.pure (some (s.withFault reason))) :=
        orderly_pure (isReady_congr fun x => resolve_withFault s reason (.var x))
      exact hfault.checked c
  | unify pairs =>
    rw [runWith_unify nested hc]
    exact (pairs_orderly hn ho hs hp).checked c

theorem wake_orderly (cs : List Constraint) (hs : s.Waiting) (hp : s.Pending K) :
    Orderly K s (fun c => cs.countP c.same) ((nested.wake cs s).map Outcome.state?) := by
  induction cs generalizing s with
  | nil => exact orderly_pure fun _ => rfl
  | cons d cs ih =>
    cases hf : s.isFaulted with
    | true =>
      rw [wake_faulted hf]
      exact orderly_faulted K _ hf
    | false =>
      simp only [countP_cons_toNat]
      rw [wake_cons nested d cs hf]
      refine (runWith_orderly hn ho hs hp d).next (fun u hu => ?_) hs.toWellFormed
      have hsu : Updates K s u := hn.runWith hs.toWellFormed hu
      have hwu : u.Waiting := (hn.runWith hs.toWellFormed hu).waiting hs
      refine ⟨hsu, fun t ht => ?_, ih hwu (hsu.pending hp)⟩
      exact (hn.wake (K := K) hwu.toWellFormed ht).extends hwu.toWellFormed

/-- The constraints that a value wakes are those that it makes ready. -/
theorem unifyWith_ordered (hK : Constraint.Consistent K) :
    Unifier.Ordered K (unifyWith nested) := by
  intro s d e hs hp
  cases hf : s.isFaulted with
  | true =>
    rw [unifyWith_faulted hf]
    exact orderly_pure fun _ => rfl
  | false =>
    have hcase := unifyWith_cases nested hf d e
    generalize unifyWith nested s d e = o at hcase
    cases hcase with
    | equal _ => exact orderly_pure fun _ => rfl
    | clash _ => exact orderly_stopped K s _
    | @point x y hpq hne hk =>
      have hx := hpq.free hs.acyclic
      have hy := hpq.swap.free hs.acyclic
      have hu : Update K s (s.pointAt x y) := .point hx hy hne hk
      refine orderly_pure fun c => Bool.eq_iff_iff.2 ⟨?_, (hu.extends hs.acyclic).isReady⟩
      exact isReady_pointAt hs.acyclic hx hy hne
    | @assign x a hpq ha =>
      have hx := hpq.free hs.acyclic
      have hb : Updates K s (s.bind x (.lit a)) := .single (.assign hx ha)
      have hbw : (s.bind x (.lit a)).Waiting := Update.waiting (.assign hx ha) hs
      have hwake := wake_orderly hn ho ((s.bind x (.lit a)).woken x) hbw (hb.pending hp)
      refine ⟨fun c hc => ?_, fun c hc hw t ht hlive => ?_⟩
      · have hcount := hs.count_woken_le hK hp hc hx ha
        have hruns := hwake.at_most c hc
        omega
      · have hcount := hs.le_count_woken hK hp hc hx (a := a) hw
        have hruns := hwake.at_least c hc (hb.watches hs.toWellFormed hw) t ht hlive
        omega

end Ordered

namespace State

variable {K : Constraint → Prop} (hK : Constraint.Consistent K)

include hK

theorem unifyAt_ordered (depth : Nat) : Unifier.Ordered K (unifyAt depth) := by
  induction depth with
  | zero => exact unifyWith_ordered exhausted_updating (fun s _ _ _ _ => orderly_stopped K s _) hK
  | succ depth ih => exact unifyWith_ordered (unifyAt_updating depth) ih hK

theorem unifyFully_ordered : Unifier.Ordered K unifyFully :=
  fun _ _ _ hs hp => unifyAt_ordered hK _ hs hp

end State

/-! ## Steps of a branch -/

namespace Leaf

/-- Whether the step executes the constraint, or another one of the same identity. -/
def posts (c : Constraint) : Leaf → Bool
  | .equal _ _ => false
  | .constraint d => c.same d

/-- The state with the constraint of the step registered. -/
def enter (s : State) : Leaf → State
  | .equal _ _ => s
  | .constraint c => s.register c c.vars

/-- The runs of a check that the step asks for itself: one for a constraint that is ready then. -/
def asked (s : State) (l : Leaf) (c : Constraint) : Nat := (l.posts c && s.isReady c).toNat

variable {K : Constraint → Prop} {s t : State} {l : Leaf} {c : Constraint}

theorem enter_waiting (hs : s.Waiting) (l : Leaf) : (l.enter s).Waiting := by
  cases l with
  | equal d e => exact hs
  | constraint c => exact waiting_register hs (List.Subset.refl _)

theorem enter_updates (hl : l.Over K) (s : State) : Updates K s (l.enter s) := by
  cases l with
  | equal d e => exact .refl s
  | constraint c => exact updates_register hl s c.vars

theorem isReady_enter (s : State) (l : Leaf) (c : Constraint) :
    (l.enter s).isReady c = s.isReady c := by
  cases l with
  | equal d e => rfl
  | constraint d => exact isReady_register s d.vars c

theorem enter_watches (hK : Constraint.Consistent K) (hc : K c) (hl : l.Over K)
    (hs : s.WellFormed) (h : s.Watches c ∨ l.posts c = true) : (l.enter s).Watches c := by
  obtain hw | hpost := h
  · exact (enter_updates hl s).watches hs hw
  · cases l with
    | equal d e => cases hpost
    | constraint d =>
      intro x hx y hy
      rw [(hK c d hc hl hpost).1] at hx
      rw [keeps_congr hpost]
      exact watches_register s d x hx y hy

theorem asked_of_posts (hK : Constraint.Consistent K) {d : Constraint} (hc : K c) (hd : K d)
    (s : State) : (constraint d).asked s c = (c.same d && s.isReady d).toNat := by
  cases h : c.same d with
  | false => simp only [asked, posts, h, Bool.false_and]
  | true => simp only [asked, posts, h, isReady, (hK c d hc hd h).1]

theorem asked_le (s : State) (l : Leaf) (c : Constraint) : l.asked s c ≤ (l.posts c).toNat := by
  cases h : l.posts c with
  | false => simp only [asked, h, Bool.false_and, Nat.le_refl]
  | true => exact Bool.toNat_le _

variable (hs : s.Waiting)

include hs

/-- A step goes on from the state in which its constraint is registered, by updates. -/
theorem run_updates (h : (l.run s).value = some t) : Updates K (l.enter s) t := by
  have hwe := (enter_waiting hs l).toWellFormed
  cases l with
  | equal d e => exact unifyFully_updating hwe (unify_eq_some.1 h)
  | constraint c =>
    simp only [run, State.post] at h
    split at h
    · exact unifyFully_updating.runWith hwe (check_eq_some.1 h)
    · cases h
      exact .refl _

theorem run_waiting (h : (l.run s).value = some t) : t.Waiting :=
  (run_updates hs h).waiting (enter_waiting hs l)

theorem run_watches (hl : l.Over K) (hK : Constraint.Consistent K) (hc : K c)
    (h : (l.run s).value = some t) (hw : s.Watches c ∨ l.posts c = true) : t.Watches c :=
  (run_updates (K := K) hs h).watches (enter_waiting hs l).toWellFormed
    (enter_watches hK hc hl hs.toWellFormed hw)

variable (hp : s.Pending K) (hl : l.Over K)

include hp hl

theorem run_pending (h : (l.run s).value = some t) : t.Pending K :=
  (run_updates hs h).pending ((enter_updates hl s).pending hp)

/-- Whatever a step observes is a run of a check, in a state on the way in which its constraint is
ready. -/
theorem run_observed {e : Observation} (he : e ∈ (l.run s).trace) :
    ∃ c u, e = .checked c u ∧ u.isReady c = true ∧ K c ∧ ∀ K', Updates K' (l.enter s) u := by
  have hwe := (enter_waiting hs l).toWellFormed
  have hpe := (enter_updates hl s).pending hp
  have hall : ∀ {o : Traced Outcome}, AllRan K (l.enter s) o → e ∈ o.trace →
      ∃ c u, e = .checked c u ∧ u.isReady c = true ∧ K c ∧ ∀ K', Updates K' (l.enter s) u :=
    fun ho he => by
      obtain ⟨c, u, rfl, hran⟩ := ho e he
      exact ⟨c, u, rfl, hran.ready, hran.kept, hran.before⟩
  cases l with
  | equal d e => exact hall (unifyFully_observing hwe hpe) he
  | constraint c =>
    simp only [run, State.post] at he
    split at he
    · rename_i hr
      rw [← isReady_register (c := c) s c.vars c] at hr
      exact hall (runWith_allRan unifyFully_updating unifyFully_observing hwe hpe hr hl) he
    · cases he

/-- A step runs the checks of the constraints that become ready by it, and that of its own
constraint if it is ready already. -/
theorem run_orderly (hK : Constraint.Consistent K) :
    Orderly K (l.enter s) (l.asked s) (l.run s) := by
  have hwe := enter_waiting hs l
  have hpe := (enter_updates hl s).pending hp
  cases l with
  | equal d e => exact unifyFully_ordered hK hwe hpe
  | constraint d =>
    cases hr : s.isReady d with
    | true =>
      have hasked : ∀ c, K c → (constraint d).asked s c = (c.same d).toNat := fun c hc => by
        rw [asked_of_posts hK hc hl, hr, Bool.and_true]
      have hrun := runWith_orderly unifyFully_updating (unifyFully_ordered hK) hwe hpe d
      simp only [run, State.post, hr, if_true]
      refine ⟨fun c hc => ?_, fun c hc hw t ht hlive => ?_⟩
      · rw [hasked c hc]
        exact hrun.at_most c hc
      · rw [hasked c hc]
        exact hrun.at_least c hc hw t ht hlive
    | false =>
      have hasked : ∀ c, K c → (constraint d).asked s c = 0 := fun c hc => by
        rw [asked_of_posts hK hc hl, hr, Bool.and_false, Bool.toNat_false]
      have hstay : Orderly K (s.register d d.vars) (fun _ => 0)
        (.pure (some (s.register d d.vars))) := orderly_pure fun _ => rfl
      simp only [run, State.post, hr, Bool.false_eq_true, if_false]
      refine ⟨fun c hc => ?_, fun c hc hw t ht hlive => ?_⟩
      · rw [hasked c hc]
        exact hstay.at_most c hc
      · rw [hasked c hc]
        exact hstay.at_least c hc hw t ht hlive

end Leaf

end Goalbase

import Goalbase.Proofs.Unifying

/-!
# Goalbase.Proofs.Observing

The runs of checks that are observed during a unification.

Pairs are unified, and woken constraints checked, one after the other: each of them goes on from the
state that the one before has reached (`Traced.next`). All that a unification observes are runs of
checks that a new value woke. `Ran K s o c u` collects what is known of such a run, in the state `u`
and on the way from `s` to the outcome `o`: updates lead from `s` to `u` and from `u` to the state
that is reached, the constraint is ready in `u`, and it satisfies `K` as the pending constraints do.
`unifyFully_observing` shows this of all runs, nested ones included.
-/

namespace Goalbase

open State

/-! ## One step after another -/

/-- Goes on from the state reached, if one is. -/
def Traced.next (o : Traced Outcome) (f : State → Traced Outcome) : Traced Outcome :=
  o.bind fun
    | .reached t => f t
    | o => .pure o

section Next

variable {o : Traced Outcome} {f : State → Traced Outcome} {s u : State}

theorem Traced.next_reached (h : o.value = .reached u) :
    o.next f = ⟨o.trace ++ (f u).trace, (f u).value⟩ := by
  simp only [next, bind, h]

theorem Traced.next_stopped (h : ∀ u, o.value ≠ .reached u) : o.next f = o := by
  obtain ⟨trace, value⟩ := o
  cases value with
  | reached u => exact absurd rfl (h u)
  | rejected => exact congrArg (Traced.mk · _) (List.append_nil trace)
  | exhausted => exact congrArg (Traced.mk · _) (List.append_nil trace)

variable (unify : Unifier)

theorem pairs_cons (d e : Term) (rest : List (Term × Term)) (s : State) :
    unify.pairs ((d, e) :: rest) s = (unify s d e).next (unify.pairs rest) := rfl

theorem wake_cons (c : Constraint) (cs : List Constraint) (h : s.isFaulted = false) :
    unify.wake (c :: cs) s = (c.runWith unify s).next (unify.wake cs) :=
  if_neg (Bool.eq_false_iff.1 h)

theorem runWith_test {c : Constraint} {terms : List Term} {judge : List Term → Verdict}
    (h : c.check = .test terms judge) (s : State) :
    c.runWith unify s = ⟨[.checked c s], (c.runWith unify s).value⟩ := by
  simp only [Constraint.runWith, h, Traced.after]
  cases judge (terms.map s.resolve) <;> rfl

theorem runWith_unify {c : Constraint} {pairs : List (Term × Term)} (h : c.check = .unify pairs)
    (s : State) : c.runWith unify s = .after (.checked c s) (unify.pairs pairs s) := by
  simp only [Constraint.runWith, h]

end Next

/-! ## What is known of a run -/

/-- What is known of a run of a check in the state `u`, on the way from `s` to the outcome. -/
structure Ran (K : Constraint → Prop) (s : State) (o : Outcome) (c : Constraint) (u : State) :
    Prop where
  before : ∀ K', Updates K' s u
  after : ∀ K' t, o = .reached t → Updates K' u t
  ready : u.isReady c = true
  kept : K c

/-- Whatever was observed is a run of a check. -/
def AllRan (K : Constraint → Prop) (s : State) (o : Traced Outcome) : Prop :=
  ∀ e ∈ o.trace, ∃ c u, e = .checked c u ∧ Ran K s o.value c u

/-- Whatever the unifier observes is a run of a check that was woken. -/
def Unifier.Observing (unify : Unifier) : Prop :=
  ∀ ⦃K s d e⦄, s.WellFormed → s.Pending K → AllRan K s (unify s d e)

theorem allRan_pure (K : Constraint → Prop) (s : State) (o : Outcome) : AllRan K s (.pure o) :=
  fun _ he => by cases he

section Observing

variable {K : Constraint → Prop} {s u : State}

/-- The runs on the way from a later state. -/
theorem AllRan.earlier {o : Traced Outcome} (h : AllRan K u o) (hsu : ∀ K', Updates K' s u) :
    AllRan K s o := fun e he =>
  let ⟨c, v, hv, hran⟩ := h e he
  ⟨c, v, hv, fun K' => (hsu K').trans (hran.before K'), hran.after, hran.ready, hran.kept⟩

theorem AllRan.next {o : Traced Outcome} {f : State → Traced Outcome} (h : AllRan K s o)
    (hf : ∀ u, o.value = .reached u → (∀ K', Updates K' s u) ∧ AllRan K u (f u)
      ∧ ∀ K' t, (f u).value = .reached t → Updates K' u t) : AllRan K s (o.next f) := by
  by_cases ho : ∃ u, o.value = .reached u
  · obtain ⟨u, ho⟩ := ho
    obtain ⟨hsu, hrest, hut⟩ := hf u ho
    rw [Traced.next_reached ho]
    intro e he
    cases List.mem_append.1 he with
    | inl he =>
      obtain ⟨c, v, rfl, hv⟩ := h e he
      exact ⟨c, v, rfl, hv.before, fun K' t ht => (hv.after K' u ho).trans (hut K' t ht),
        hv.ready, hv.kept⟩
    | inr he => exact hrest.earlier hsu e he
  · rw [Traced.next_stopped (not_exists.1 ho)]
    exact h

variable {nested : Unifier} (hn : nested.Updating) (ho : nested.Observing)

include hn ho

theorem pairs_allRan {pairs : List (Term × Term)} (hs : s.WellFormed) (hp : s.Pending K) :
    AllRan K s (nested.pairs pairs s) := by
  induction pairs generalizing s with
  | nil => exact allRan_pure K s _
  | cons p rest ih =>
    rw [pairs_cons]
    refine (ho hs hp).next fun u hu => ?_
    have hsu : Updates K s u := hn hs hu
    have hwu := hsu.wellFormed hs
    exact ⟨fun K' => hn hs hu, ih hwu (hsu.pending hp), fun K' t ht => hn.pairs hwu ht⟩

theorem runWith_allRan {c : Constraint} (hs : s.WellFormed) (hp : s.Pending K)
    (hr : s.isReady c = true) (hc : K c) : AllRan K s (c.runWith nested s) := by
  have hself : Ran K s (c.runWith nested s).value c s :=
    ⟨fun K' => .refl s, fun K' t ht => hn.runWith hs ht, hr, hc⟩
  cases hcheck : c.check with
  | test terms judge =>
    rw [runWith_test nested hcheck]
    exact fun e he => ⟨c, s, List.mem_singleton.1 he, hself⟩
  | unify pairs =>
    rw [runWith_unify nested hcheck] at hself ⊢
    intro e he
    cases List.mem_cons.1 he with
    | inl he => exact ⟨c, s, he, hself⟩
    | inr he => exact pairs_allRan hn ho hs hp e he

theorem wake_allRan {cs : List Constraint} (hs : s.WellFormed) (hp : s.Pending K)
    (hcs : ∀ c ∈ cs, s.isReady c = true ∧ K c) : AllRan K s (nested.wake cs s) := by
  induction cs generalizing s with
  | nil => exact allRan_pure K s _
  | cons c cs ih =>
    cases hf : s.isFaulted with
    | true =>
      rw [wake_faulted hf]
      exact allRan_pure K s _
    | false =>
      obtain ⟨⟨hr, hc⟩, hcs⟩ := List.forall_mem_cons.1 hcs
      rw [wake_cons nested c cs hf]
      refine (runWith_allRan hn ho hs hp hr hc).next fun u hu => ?_
      have hsu : Updates K s u := hn.runWith hs hu
      have hwu := hsu.wellFormed hs
      refine ⟨fun K' => hn.runWith hs hu, ih hwu (hsu.pending hp) fun d hd => ?_,
        fun K' t ht => hn.wake hwu ht⟩
      exact ⟨(hsu.extends hs).isReady (hcs d hd).1, (hcs d hd).2⟩

theorem unifyWith_observing : Unifier.Observing (unifyWith nested) := by
  intro K s d e hs hp
  cases hf : s.isFaulted with
  | true =>
    rw [unifyWith_faulted hf]
    exact allRan_pure K s _
  | false =>
    have hcase := unifyWith_cases nested hf d e
    generalize unifyWith nested s d e = o at hcase
    cases hcase with
    | equal _ => exact allRan_pure K s _
    | clash _ => exact allRan_pure K s _
    | point _ _ _ => exact allRan_pure K s _
    | @assign x a hpq ha =>
      have hb : ∀ K', Updates K' s (s.bind x (.lit a)) :=
        fun K' => .single (.assign (hpq.free hs.acyclic) ha)
      have hwake : AllRan K (s.bind x (.lit a))
          (nested.wake ((s.bind x (.lit a)).woken x) (s.bind x (.lit a))) :=
        wake_allRan hn ho ((hb K).wellFormed hs) ((hb K).pending hp) fun c hc =>
          ⟨(List.mem_filter.1 hc).2, hp x c (List.mem_filter.1 hc).1⟩
      exact hwake.earlier hb

end Observing

namespace State

theorem unifyAt_observing (depth : Nat) : Unifier.Observing (unifyAt depth) := by
  induction depth with
  | zero => exact unifyWith_observing exhausted_updating fun _ s _ _ _ _ => allRan_pure _ s _
  | succ depth ih => exact unifyWith_observing (unifyAt_updating depth) ih

theorem unifyFully_observing : Unifier.Observing unifyFully :=
  fun _ _ _ _ hs hp => unifyAt_observing _ hs hp

end State

end Goalbase

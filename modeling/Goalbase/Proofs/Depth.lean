import Goalbase.Proofs.Unifying

/-!
# Goalbase.Proofs.Depth

Unification is never cut short.

A nested unification starts only after a variable without a value was given one. That variable is
the end of a variable which the terms or the checks of pending constraints mention, and values stay,
so a depth of the number of mentioned variables without a value is enough (`unifyAt_enough`). The
room that `State.unify` and `State.check` take is the number of all of them
(`unifyFully_ne_exhausted`, `check_ne_exhausted`).
-/

namespace Goalbase

namespace State

variable {M : List Var} {s t : State}

/-- How many of the listed variables have no value. -/
def unvalued (M : List Var) (s : State) : Nat := M.countP fun x => !s.hasValue x

/-- The check of the constraint mentions listed variables only. -/
def Mentions (M : List Var) (c : Constraint) : Prop := varsOf c.check.terms ⊆ M

theorem Extends.unvalued_le (h : s.Extends t) (M : List Var) : t.unvalued M ≤ s.unvalued M := by
  refine List.countP_mono_left fun x _ hx => ?_
  rw [Bool.not_eq_true'] at hx ⊢
  refine Bool.eq_false_iff.2 fun hs => ?_
  rw [h.hasValue hs] at hx
  cases hx

/-- A variable that gets a value counts no longer. -/
theorem Extends.unvalued_lt (h : s.Extends t) {x : Var} (hx : x ∈ M) (hs : s.hasValue x = false)
    (ht : t.hasValue x = true) : t.unvalued M < s.unvalued M := by
  obtain ⟨pre, post, rfl⟩ := List.append_of_mem hx
  have hpre := h.unvalued_le pre
  have hpost := h.unvalued_le post
  simp only [unvalued, List.countP_append, List.countP_cons, hs, ht] at hpre hpost ⊢
  simp only [Bool.not_true, Bool.not_false, Bool.false_eq_true, if_true, if_false]
  omega

theorem mem_varsOf {w : Var} {terms : List Term} : w ∈ varsOf terms ↔ .var w ∈ terms := by
  simp only [varsOf, List.mem_filterMap]
  constructor
  · rintro ⟨u, hu, hw⟩
    cases u with
    | lit a => cases hw
    | var x => cases hw; exact hu
  · exact fun h => ⟨.var w, h, rfl⟩

/-- A variable is the end only of variables. -/
theorem exists_var_of_resolve {d : Term} {x : Var} (h : s.resolve d = .var x) :
    ∃ w, d = .var w := by
  cases d with
  | lit a =>
    rw [resolve_lit] at h
    cases h
  | var w => exact ⟨w, rfl⟩

end State

open State

theorem Either.exists_mem {d e r : Term} {s : State} {x : Var}
    (h : Either (s.resolve d) (s.resolve e) (.var x) r) :
    ∃ w ∈ varsOf [d, e], s.resolve (.var w) = .var x := by
  obtain ⟨h, -⟩ | ⟨-, h⟩ := h
  · obtain ⟨w, rfl⟩ := exists_var_of_resolve h
    exact ⟨w, mem_varsOf.2 List.mem_cons_self, h⟩
  · obtain ⟨w, rfl⟩ := exists_var_of_resolve h
    exact ⟨w, mem_varsOf.2 (List.mem_cons_of_mem _ List.mem_cons_self), h⟩

/-- The depth is enough for terms among the listed variables, while at most so many of them have no
value. -/
def Unifier.Enough (M : List Var) (depth : Nat) (unify : Unifier) : Prop :=
  ∀ ⦃s d e⦄, s.WellFormed → s.Pending (Mentions M) → varsOf [d, e] ⊆ M → s.unvalued M ≤ depth →
    (unify s d e).value ≠ .exhausted

section Enough

variable {M : List Var} {depth : Nat} {nested : Unifier} (hn : nested.Updating) {s : State}

include hn

theorem pairs_enough (h : nested.Enough M depth) {pairs : List (Term × Term)} (hs : s.WellFormed)
    (hp : s.Pending (Mentions M)) (hM : varsOf (Check.unify pairs).terms ⊆ M)
    (hdepth : s.unvalued M ≤ depth) : (nested.pairs pairs s).value ≠ .exhausted := by
  induction pairs generalizing s with
  | nil =>
    intro hex
    cases hex
  | cons p rest ih =>
    obtain ⟨d, e⟩ := p
    have hsplit : varsOf (Check.unify ((d, e) :: rest)).terms
        = varsOf [d, e] ++ varsOf (Check.unify rest).terms := by
      simp only [varsOf, Check.terms, List.flatMap_cons, List.filterMap_append]
    rw [hsplit, List.append_subset] at hM
    have hfirst := h hs hp hM.1 hdepth
    rw [value_pairs_cons]
    cases hu : (nested s d e).value with
    | reached u =>
      have hsu : Updates (Mentions M) s u := hn hs hu
      exact ih (hsu.wellFormed hs) (hsu.pending hp) hM.2
        (Nat.le_trans ((hsu.extends hs).unvalued_le M) hdepth)
    | rejected =>
      intro hex
      cases hex
    | exhausted => exact absurd hu hfirst

theorem runWith_enough (h : nested.Enough M depth) {c : Constraint} (hs : s.WellFormed)
    (hp : s.Pending (Mentions M)) (hM : Mentions M c) (hdepth : s.unvalued M ≤ depth) :
    (c.runWith nested s).value ≠ .exhausted := by
  cases hc : c.check with
  | test terms judge =>
    rw [value_runWith_test hc]
    intro hex
    cases hj : judge (terms.map s.resolve) with
    | accept => rw [hj] at hex; cases hex
    | reject => rw [hj] at hex; cases hex
    | fault reason => rw [hj] at hex; cases hex
  | unify pairs =>
    rw [value_runWith_unify hc]
    rw [Mentions, hc] at hM
    exact pairs_enough hn h hs hp hM hdepth

theorem wake_enough (h : nested.Enough M depth) {cs : List Constraint} (hs : s.WellFormed)
    (hp : s.Pending (Mentions M)) (hcs : ∀ c ∈ cs, Mentions M c) (hdepth : s.unvalued M ≤ depth) :
    (nested.wake cs s).value ≠ .exhausted := by
  induction cs generalizing s with
  | nil =>
    intro hex
    cases hex
  | cons c cs ih =>
    cases hf : s.isFaulted with
    | true =>
      rw [wake_faulted hf]
      intro hex
      cases hex
    | false =>
      have hfirst := runWith_enough hn h hs hp (hcs c List.mem_cons_self) hdepth
      rw [value_wake_cons hf]
      cases hu : (c.runWith nested s).value with
      | reached u =>
        have hsu : Updates (Mentions M) s u := hn.runWith hs hu
        exact ih (hsu.wellFormed hs) (hsu.pending hp)
          (fun d hd => hcs d (List.mem_cons_of_mem _ hd))
          (Nat.le_trans ((hsu.extends hs).unvalued_le M) hdepth)
      | rejected =>
        intro hex
        cases hex
      | exhausted => exact absurd hu hfirst

/-- A level of unification is deep enough when the one below is, for fewer variables. -/
theorem unifyWith_enough (h : ∀ n < depth, nested.Enough M n) :
    Unifier.Enough M depth (State.unifyWith nested) := by
  intro s d e hs hp hM hdepth
  cases hf : s.isFaulted with
  | true =>
    rw [unifyWith_faulted hf]
    intro hex
    cases hex
  | false =>
    have hcase := unifyWith_cases nested hf d e
    generalize State.unifyWith nested s d e = o at hcase
    cases hcase with
    | equal _ =>
      intro hex
      cases hex
    | clash _ =>
      intro hex
      cases hex
    | point _ _ _ =>
      intro hex
      cases hex
    | @assign x a hpq ha =>
      have hb : Update (Mentions M) s (s.bind x (.lit a)) := .assign (hpq.free hs.acyclic) ha
      -- one of the terms is a variable that gets its value now
      obtain ⟨w, hw, hwx⟩ := hpq.exists_mem
      have hlt := (hb.extends hs.acyclic).unvalued_lt (hM hw) (hasValue_eq_false.2 ⟨x, hwx⟩)
        (hasValue_iff.2 ⟨a, by
          rw [resolve_assign hs.acyclic (hpq.free hs.acyclic), hwx, Term.replace_self]⟩)
      exact wake_enough hn (h _ (Nat.lt_of_lt_of_le hlt hdepth)) (hb.wellFormed hs) (hb.pending hp)
        (fun c hc => hp x c (List.mem_filter.1 hc).1) (Nat.le_refl _)

end Enough

namespace State

variable {s : State}

theorem unifyAt_enough (M : List Var) (depth : Nat) : Unifier.Enough M depth (unifyAt depth) := by
  induction depth with
  | zero => exact unifyWith_enough exhausted_updating fun n hn => absurd hn (Nat.not_lt_zero n)
  | succ depth ih =>
    refine unifyWith_enough (unifyAt_updating depth) fun n hn s d e hs hp hM hle => ?_
    exact ih hs hp hM (Nat.le_trans hle (Nat.le_of_lt_succ hn))

theorem Pending.mono {K K' : Constraint → Prop} (h : s.Pending K) (hK : ∀ c, K c → K' c) :
    s.Pending K' := fun x c hc => hK c (h x c hc)

/-- The constraint and its check mention listed variables only. -/
def Names (M : List Var) (c : Constraint) : Prop := c.vars ++ varsOf c.check.terms ⊆ M

/-- What pending constraints mention counts for the room of a unification. -/
theorem pending_names (s : State) : s.Pending (Names s.pendingVars) := by
  intro x c hc y hy
  simp only [constraintsOf, Table.get?] at hc
  cases hcs : valueAt? x s.pending.entries with
  | none =>
    rw [hcs] at hc
    cases hc
  | some cs =>
    rw [hcs] at hc
    exact List.mem_flatMap.2 ⟨(x, cs), mem_of_valueAt? hcs, List.mem_flatMap.2 ⟨c, hc, hy⟩⟩

theorem pending_mentions (s : State) : s.Pending (Mentions s.pendingVars) :=
  s.pending_names.mono fun _ hc => List.Subset.trans (List.subset_append_right _ _) hc

theorem unifyFully_ne_exhausted (hs : s.WellFormed) (d e : Term) :
    (s.unifyFully d e).value ≠ .exhausted :=
  unifyAt_enough (varsOf [d, e] ++ s.pendingVars) _ hs
    (s.pending_mentions.mono fun _ hc => List.Subset.trans hc (List.subset_append_right _ _))
    (List.subset_append_left _ _) List.countP_le_length

theorem check_ne_exhausted (hs : s.WellFormed) (c : Constraint) :
    (c.runWith unifyFully s).value ≠ .exhausted :=
  runWith_enough unifyFully_updating (M := varsOf c.check.terms ++ s.pendingVars)
    (fun _ d e hs _ _ _ => unifyFully_ne_exhausted hs d e) hs
    (s.pending_mentions.mono fun _ hc => List.Subset.trans hc (List.subset_append_right _ _))
    (List.subset_append_left _ _) (Nat.le_refl _)

end State

end Goalbase

import Goalbase.Proofs.Waking

/-!
# Goalbase.Proofs.Timing

When the checks of constraints run along a branch.

`Goal.Path g b` says that the steps `b` are met on one way through the goal `g`; a way may come to
an end in the first goal of a conjunction. `Goal.Meets g pre s l` says that on such a way the step
`l` is met in the state `s`, after the steps `pre`. Then every constraint executed so far waits
exactly once for each of its variables without a value, in the state that the step leads to as in
those in which it runs a check. A check runs only when all variables of its constraint have values,
no more often than the constraint is executed, and it has run as soon as they have
(`checks_run_in_time`).
-/

namespace Goalbase

open State

/-! ## Following a branch -/

section Follow

variable {l : Leaf} {b : List Leaf} {s t u : State}

theorem follow_cons_live (h : (l.run s).value = some u) (hu : u.isFaulted = false) :
    follow (l :: b) s = ⟨(l.run s).trace ++ (follow b u).trace, (follow b u).value⟩ := by
  simp only [follow, Traced.bind, h, hu, Bool.false_eq_true, if_false]

theorem follow_cons_stopped (h : Stream.success? (l.run s).value = none) :
    follow (l :: b) s = l.run s := by
  simp only [follow]
  generalize l.run s = o at h
  obtain ⟨trace, i⟩ := o
  cases i with
  | none => exact congrArg (Traced.mk · none) (List.append_nil trace)
  | some u =>
    have hu : u.isFaulted = true := by
      cases hu : u.isFaulted with
      | true => rfl
      | false => cases (Stream.success?_live hu).symm.trans h
    simp only [Traced.bind, hu, if_true]
    exact congrArg (Traced.mk · (some u)) (List.append_nil trace)

/-- All steps of the branch are met from `s` on, and the last one leads to `t`. -/
def LeadsTo (b : List Leaf) (s t : State) : Prop :=
  b = [] ∧ t = s ∨
    ∃ pre l u, b = pre ++ [l] ∧ reach pre s = some u ∧ (l.run u).value = some t

theorem leadsTo_singleton (hs : s.isFaulted = false) (h : (l.run s).value = some t) :
    LeadsTo [l] s t := .inr ⟨[], l, s, rfl, reach_nil hs, h⟩

theorem leadsTo_append (hs : s.isFaulted = false) (h : reach b s = some u) {b' : List Leaf}
    (h' : LeadsTo b' u t) : LeadsTo (b ++ b') s t := by
  obtain ⟨rfl, rfl⟩ | ⟨pre, l, v, rfl, hv, ht⟩ := h'
  · rw [List.append_nil]
    cases List.eq_nil_or_concat b with
    | inl hb =>
      subst hb
      exact .inl ⟨rfl, (Option.some.inj (success?_eq_some.1 h).1).symm⟩
    | inr hb =>
      obtain ⟨pre, l, rfl⟩ := hb
      rw [List.concat_eq_append] at h ⊢
      rw [reach_append hs] at h
      obtain ⟨v, hv, hl⟩ := Option.bind_eq_some_iff.1 h
      rw [Goal.reach_singleton] at hl
      exact .inr ⟨pre, l, v, rfl, hv, (success?_eq_some.1 hl).1⟩
  · refine .inr ⟨b ++ pre, l, v, (List.append_assoc _ _ _).symm, ?_, ht⟩
    rw [reach_append hs, h]
    exact hv

end Follow

/-! ## The checks along a branch -/

theorem runs_eq_zero {c : Constraint} {trace : List Observation}
    (h : ∀ e ∈ trace, ∃ d u, e = .checked d u ∧ c.same d = false) : runs c trace = 0 := by
  refine List.countP_eq_zero.2 fun e he hrun => ?_
  obtain ⟨d, u, rfl, hd⟩ := h e he
  exact Bool.false_ne_true (hd.symm.trans hrun)

section Branch

variable {K : Constraint → Prop} {b : List Leaf} {s t : State} {c : Constraint}
  (hs : s.Waiting) (hp : s.Pending K) (hb : ∀ l ∈ b, l.Over K)

include hs hp hb

theorem reach_waiting (h : reach b s = some t) : t.Waiting ∧ t.Pending K := by
  induction b generalizing s with
  | nil =>
    cases (success?_eq_some.1 h).1
    exact ⟨hs, hp⟩
  | cons l b ih =>
    obtain ⟨hl, hb⟩ := List.forall_mem_cons.1 hb
    obtain ⟨u, hu, -, h⟩ := reach_cons_some.1 h
    exact ih (Leaf.run_waiting hs hu) (Leaf.run_pending hs hp hl hu) hb h

variable (hK : Constraint.Consistent K) (hc : K c)

include hK hc

/-- A branch keeps a watch on what was watched, and on what was executed. -/
theorem reach_watches (h : reach b s = some t) (hw : s.Watches c ∨ .constraint c ∈ b) :
    t.Watches c := by
  induction b generalizing s with
  | nil =>
    cases (success?_eq_some.1 h).1
    exact hw.resolve_right List.not_mem_nil
  | cons l b ih =>
    obtain ⟨hl, hb⟩ := List.forall_mem_cons.1 hb
    obtain ⟨u, hu, -, h⟩ := reach_cons_some.1 h
    refine ih (Leaf.run_waiting hs hu) (Leaf.run_pending hs hp hl hu) hb h ?_
    rw [List.mem_cons, ← or_assoc] at hw
    refine hw.imp_left fun hw => Leaf.run_watches hs hl hK hc hu (hw.imp_right fun hmem => ?_)
    rw [← hmem]
    exact Constraint.same_refl c

/-- A check runs once if its constraint becomes ready, and as often as its constraint is executed
from then on. -/
theorem runs_follow_le :
    runs c (follow b s).trace + (s.isReady c).toNat
      ≤ ceiling c (follow b s).value + b.countP (Leaf.posts c) := by
  induction b generalizing s with
  | nil =>
    simp only [follow, Traced.trace_pure, Traced.value_pure, runs_nil, ceiling, Nat.zero_add]
    exact Nat.le_add_right _ _
  | cons l b ih =>
    obtain ⟨hl, hb⟩ := List.forall_mem_cons.1 hb
    have hrun := (Leaf.run_orderly hs hp hl hK).at_most c hc
    have hasked := Leaf.asked_le s l c
    rw [Leaf.isReady_enter] at hrun
    rw [countP_cons_toNat]
    cases hstep : Stream.success? (l.run s).value with
    | none =>
      rw [follow_cons_stopped hstep]
      omega
    | some u =>
      obtain ⟨hu, hlive⟩ := success?_eq_some.1 hstep
      have hrest := ih (Leaf.run_waiting hs hu) (Leaf.run_pending hs hp hl hu) hb
      simp only [hu, ceiling] at hrun
      simp only [follow_cons_live hu hlive, runs_append]
      omega

/-- The check of a watched constraint has run when all variables have got values. -/
theorem le_runs_of_watches (h : reach b s = some t) (hw : s.Watches c) :
    (t.isReady c).toNat ≤ runs c (follow b s).trace + (s.isReady c).toNat := by
  induction b generalizing s with
  | nil =>
    cases (success?_eq_some.1 h).1
    exact Nat.le_add_left _ _
  | cons l b ih =>
    obtain ⟨hl, hb⟩ := List.forall_mem_cons.1 hb
    obtain ⟨u, hu, hlive, h⟩ := reach_cons_some.1 h
    have hwe := Leaf.enter_watches hK hc hl hs.toWellFormed (.inl hw)
    have hrun := (Leaf.run_orderly hs hp hl hK).at_least c hc hwe u hu hlive
    have hrest := ih (Leaf.run_waiting hs hu) (Leaf.run_pending hs hp hl hu) hb h
      (Leaf.run_watches hs hl hK hc hu (.inl hw))
    rw [Leaf.isReady_enter] at hrun
    simp only [follow_cons_live hu hlive, runs_append]
    omega

/-- The check of a constraint that was executed has run when all variables have got values. -/
theorem le_runs_of_mem (h : reach b s = some t) (hmem : .constraint c ∈ b) :
    (t.isReady c).toNat ≤ runs c (follow b s).trace := by
  induction b generalizing s with
  | nil => cases hmem
  | cons l b ih =>
    obtain ⟨hl, hb⟩ := List.forall_mem_cons.1 hb
    obtain ⟨u, hu, hlive, hrest⟩ := reach_cons_some.1 h
    have hwu := Leaf.run_waiting hs hu
    have hpu := Leaf.run_pending hs hp hl hu
    simp only [follow_cons_live hu hlive, runs_append]
    cases List.mem_cons.1 hmem with
    | inr hmem => exact Nat.le_add_left_of_le (ih hwu hpu hb hrest hmem)
    | inl e =>
      -- a run that the step does not ask for itself comes when the constraint becomes ready
      have hpost : l.posts c = true := by
        rw [← e]
        exact Constraint.same_refl c
      have hwe := Leaf.enter_watches hK hc hl hs.toWellFormed (.inr hpost)
      have hrun := (Leaf.run_orderly hs hp hl hK).at_least c hc hwe u hu hlive
      have hdue := le_runs_of_watches hwu hpu hb hK hc hrest
        (Leaf.run_watches hs hl hK hc hu (.inr hpost))
      rw [Leaf.isReady_enter, Leaf.asked, hpost, Bool.true_and] at hrun
      omega

/-- A check runs no more often than its constraint is executed. -/
theorem runs_le_posts (hnew : s.Pending fun d => c.same d = false) :
    runs c (follow b s).trace ≤ b.countP (Leaf.posts c) := by
  induction b generalizing s with
  | nil => exact Nat.le_refl 0
  | cons l b ih =>
    obtain ⟨hl, hb⟩ := List.forall_mem_cons.1 hb
    rw [countP_cons_toNat]
    cases hpost : l.posts c with
    | true =>
      -- at the first execution the check runs now, if the constraint is ready, or not yet
      have hrun := (Leaf.run_orderly hs hp hl hK).at_most c hc
      rw [Leaf.isReady_enter, Leaf.asked, hpost, Bool.true_and] at hrun
      cases hstep : Stream.success? (l.run s).value with
      | none =>
        have hle := ceiling_le c (l.run s).value
        rw [follow_cons_stopped hstep, Bool.toNat_true]
        omega
      | some u =>
        obtain ⟨hu, hlive⟩ := success?_eq_some.1 hstep
        have hwu := Leaf.run_waiting hs hu
        have hrest := runs_follow_le hwu (Leaf.run_pending hs hp hl hu) hb hK hc
        have hle := ceiling_le c (follow b u).value
        simp only [hu, ceiling] at hrun
        simp only [follow_cons_live hu hlive, runs_append, Bool.toNat_true]
        omega
    | false =>
      have hother : l.Over fun d => c.same d = false := by
        cases l with
        | equal d e => trivial
        | constraint d => exact hpost
      have hnone : runs c (l.run s).trace = 0 := runs_eq_zero fun e he => by
        obtain ⟨d, u, heq, -, hd, -⟩ := Leaf.run_observed hs hnew hother he
        exact ⟨d, u, heq, hd⟩
      rw [Bool.toNat_false, Nat.zero_add]
      cases hstep : Stream.success? (l.run s).value with
      | none =>
        rw [follow_cons_stopped hstep, hnone]
        exact Nat.zero_le _
      | some u =>
        obtain ⟨hu, hlive⟩ := success?_eq_some.1 hstep
        simp only [follow_cons_live hu hlive, runs_append, hnone, Nat.zero_add]
        exact ih (Leaf.run_waiting hs hu) (Leaf.run_pending hs hp hl hu) hb
          (Leaf.run_pending hs hnew hother hu)

end Branch

/-! ## The ways through a goal -/

namespace Goal

/-- The steps that are met, in order, on one way through a goal without delay. A way that comes to
an end in the first goal of a conjunction does not meet the second one. -/
inductive Path : Goal → List Leaf → Prop where
  | succeed : Path .succeed []
  | equal (d e : Term) : Path (.equal d e) [.equal d e]
  | constraint (c : Constraint) : Path (.constraint c) [.constraint c]
  | or {goals : List Goal} {goal : Goal} {b : List Leaf} (h : goal ∈ goals) (hb : Path goal b) :
      Path (.or goals) b
  | first {first : Goal} {b : List Leaf} (h : Path first b) (second : Goal) :
      Path (.and first second) b
  | second {first second : Goal} {b b' : List Leaf} (h : b ∈ first.branches)
      (h' : Path second b') : Path (.and first second) (b ++ b')

variable {K : Constraint → Prop} {g : Goal} {b : List Leaf} {s t : State}

theorem Path.over (h : g.Path b) (hg : g.Built K) : ∀ l ∈ b, l.Over K := by
  induction h with
  | succeed => exact fun l hl => by cases hl
  | equal d e =>
    intro l hl
    rw [List.mem_singleton.1 hl]
    trivial
  | constraint c =>
    intro l hl
    rw [List.mem_singleton.1 hl]
    cases hg with
    | constraint hc => exact hc
  | or hmem _ ih =>
    cases hg with
    | or hgoals => exact ih (hgoals _ hmem)
  | first _ second ih =>
    cases hg with
    | and hfirst _ => exact ih hfirst
  | second hbranch _ ih =>
    cases hg with
    | and hfirst hsecond =>
      intro l hl
      cases List.mem_append.1 hl with
      | inl hl => exact hfirst.over _ hbranch l hl
      | inr hl => exact ih hsecond l hl

/-- Every state among the items of a goal is one that some way through the goal leads to. -/
theorem Built.path_of_item (hg : g.Built K) (hs : s.isFaulted = false) (h : some t ∈ g.items s) :
    ∃ b, g.Path b ∧ LeadsTo b s t := by
  induction hg generalizing s t with
  | succeed =>
    cases List.mem_singleton.1 h
    exact ⟨[], .succeed, .inl ⟨rfl, rfl⟩⟩
  | fail => cases List.mem_singleton.1 h
  | equal d e => exact ⟨_, .equal d e, leadsTo_singleton hs (List.mem_singleton.1 h).symm⟩
  | @constraint c _ =>
    exact ⟨_, .constraint c, leadsTo_singleton hs (List.mem_singleton.1 h).symm⟩
  | or _ ih =>
    rw [items, itemsAny_eq] at h
    obtain ⟨goal, hgoal, h⟩ := List.mem_flatMap.1 h
    obtain ⟨b, hb, ht⟩ := ih goal hgoal hs h
    exact ⟨b, .or hgoal hb, ht⟩
  | @and first second _ _ ih ih' =>
    rw [items] at h
    obtain ⟨i, hi, h⟩ := List.mem_flatMap.1 h
    cases i with
    | none => cases List.mem_singleton.1 h
    | some u =>
      cases hu : u.isFaulted with
      | true =>
        rw [andThen_faulted _ hu] at h
        cases List.mem_singleton.1 h
        obtain ⟨b, hb, ht⟩ := ih hs hi
        exact ⟨b, hb.first second, ht⟩
      | false =>
        rw [andThen_live _ hu] at h
        have hanswer : u ∈ first.answers s :=
          List.mem_filterMap.2 ⟨some u, hi, Stream.success?_live hu⟩
        rw [answers_eq_branches first hs] at hanswer
        obtain ⟨b, hb, hreach⟩ := List.mem_filterMap.1 hanswer
        obtain ⟨b', hb', ht⟩ := ih' hu h
        exact ⟨b ++ b', .second hb hb', leadsTo_append hs hreach ht⟩

/-- On a way through the goal, from the empty state on, the step is met in the state `s` after the
steps `pre`. -/
structure Meets (g : Goal) (pre : List Leaf) (s : State) (l : Leaf) : Prop where
  way : ∃ b, g.Path b ∧ pre ++ [l] <+: b
  reached : reach pre .empty = some s

theorem Meets.over {pre : List Leaf} {l : Leaf} (h : g.Meets pre s l) (hg : g.Built K) :
    ∀ l' ∈ pre ++ [l], l'.Over K := by
  obtain ⟨b, hb, hpre⟩ := h.way
  exact fun l' hl' => hb.over hg l' (hpre.subset hl')

end Goal

/-! ## Checks in time -/

/-- The constraint is kept exactly once at the end of the chain of each of its variables without a
value. -/
def State.Awaits (s : State) (c : Constraint) : Prop :=
  ∀ x ∈ c.vars, ∀ y, s.resolve (.var x) = .var y → (s.constraintsOf y).countP c.same = 1

section Meets

variable {K : Constraint → Prop} (hK : Constraint.Consistent K) {g : Goal} (hg : g.Built K)
  {pre : List Leaf} {s t : State} {l : Leaf} {c : Constraint} (h : g.Meets pre s l)

include hK hg h

/-- Whatever was executed is awaited in the state that a step leads to, and in those in which it
runs a check. -/
theorem Goal.Meets.awaits (ht : (l.run s).value = some t ∨ ∃ d, .checked d t ∈ (l.run s).trace)
    (hmem : .constraint c ∈ pre ++ [l]) : t.Awaits c := by
  have hover := h.over hg
  have hc : K c := hover _ hmem
  obtain ⟨hpre, hl⟩ := List.forall_mem_append.1 hover
  have hl := List.forall_mem_singleton.1 hl
  obtain ⟨hs, hp⟩ := reach_waiting waiting_empty (pending_empty K) hpre h.reached
  -- the state is reached by updates once the constraint of the step is registered
  have hupdates : ∀ K', Updates K' (l.enter s) t := fun K' => by
    obtain ht | ⟨d, hd⟩ := ht
    · exact Leaf.run_updates hs ht
    · obtain ⟨_, _, heq, -, -, hu⟩ := Leaf.run_observed hs hp hl hd
      cases heq
      exact hu K'
  have hwe := Leaf.enter_waiting hs l
  have hw : (l.enter s).Watches c := by
    refine Leaf.enter_watches hK hc hl hs.toWellFormed ?_
    cases List.mem_append.1 hmem with
    | inl hmem => exact .inl (reach_watches waiting_empty (pending_empty K) hpre hK hc h.reached
        (.inr hmem))
    | inr hmem =>
      rw [← List.mem_singleton.1 hmem]
      exact .inr (Constraint.same_refl c)
  exact fun x hx y hy => ((hupdates _).waiting hwe).count_watched
    ((hupdates K).watches hwe.toWellFormed hw) hx hy

end Meets

end Goalbase

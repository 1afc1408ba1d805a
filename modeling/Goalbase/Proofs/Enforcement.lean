import Goalbase.Proofs.Branches

/-!
# Goalbase.Proofs.Enforcement

Constraints that wait are enforced.

A constraint is watched in a state when it is kept at the end of the chain of each of its variables
that has no value yet. Every update keeps what is watched (`Update.watches`). A value given to a
variable wakes the constraints kept on it, so a constraint that becomes ready during a unification
is satisfied when the unification is through (`unifyFully_settling`), although the checks that are
woken may unify further terms and wake further checks before it is their turn. So in every state
that a branch reaches, the constraints met on the branch are satisfied once they are ready
(`constraints_enforced`).
-/

namespace Goalbase

namespace Constraint

/-- The judgement depends only on the values of the variables the constraint waits for. -/
def Decided (c : Constraint) : Prop :=
  match c.check with
  | .test terms judge => ∀ s t : State,
      (∀ x ∈ c.vars, ∃ a, s.valueOf? x = some a ∧ t.valueOf? x = some a) →
      judge (terms.map s.resolve) = judge (terms.map t.resolve)
  | .unify _ => True

/-- The judgement depends only on the values, up to equality, of the variables the constraint waits
for, and is not a fault. -/
def Plain (c : Constraint) : Prop :=
  match c.check with
  | .test terms judge => ∀ s t : State,
      (∀ x ∈ c.vars, ∃ a b, s.valueOf? x = some a ∧ t.valueOf? x = some b ∧ a.same b = true) →
      judge (terms.map s.resolve) = judge (terms.map t.resolve)
        ∧ ∀ reason, judge (terms.map s.resolve) ≠ .fault reason
  | .unify _ => True

/-- The check accepts the state: its judgement is to accept, or its terms are equal already. -/
def Satisfied (c : Constraint) (s : State) : Prop :=
  match c.check with
  | .test terms judge => judge (terms.map s.resolve) = .accept
  | .unify pairs => ∀ p ∈ pairs, (s.resolve p.1).same (s.resolve p.2) = true

/-- Constraints with one handle wait for the same variables and check the same. -/
def Consistent (K : Constraint → Prop) : Prop :=
  ∀ c d, K c → K d → c.same d = true → c.vars = d.vars ∧ c.check = d.check

variable {c d e : Constraint} {s t : State}

theorem same_iff : c.same d = true ↔ c.handle = d.handle := beq_iff_eq

theorem same_refl (c : Constraint) : c.same c = true := same_iff.2 rfl

theorem same_trans (h : c.same d = true) (h' : d.same e = true) : c.same e = true :=
  same_iff.2 ((same_iff.1 h).trans (same_iff.1 h'))

theorem satisfied_congr (h : c.check = d.check) : c.Satisfied s ↔ d.Satisfied s := by
  simp only [Satisfied, h]

theorem Plain.decided (h : c.Plain) : c.Decided := by
  cases hc : c.check with
  | test terms judge =>
    simp only [Plain, Decided, hc] at h ⊢
    intro s t hst
    refine (h s t fun x hx => ?_).1
    obtain ⟨a, ha, ha'⟩ := hst x hx
    exact ⟨a, a, ha, ha', Literal.same_refl a⟩
  | unify pairs => simp only [Decided, hc]

/-- A constraint that was ready and satisfied stays so. -/
theorem Satisfied.mono (hc : c.Satisfied s) (hdec : c.Decided) (hr : s.isReady c = true)
    (h : s.Extends t) : c.Satisfied t := by
  cases hcheck : c.check with
  | test terms judge =>
    simp only [Satisfied, Decided, hcheck] at hc hdec ⊢
    rw [← hdec s t fun x hx => ?_]
    · exact hc
    · obtain ⟨a, ha⟩ := State.hasValue_iff.1 (State.isReady_iff.1 hr x hx)
      exact ⟨a, State.valueOf?_eq_some.2 ha, State.valueOf?_eq_some.2 (h.resolve_lit ha)⟩
  | unify pairs =>
    simp only [Satisfied, hcheck] at hc ⊢
    exact fun p hp => h.same (hc p hp)

end Constraint

namespace State

open Constraint

variable {s t u : State} {x y : Var} {c d : Constraint} {K : Constraint → Prop}

/-! ## Watched constraints -/

/-- The constraint is kept at the end of the chain of each of its variables without a value. -/
def Watches (s : State) (c : Constraint) : Prop :=
  ∀ x ∈ c.vars, ∀ y, s.resolve (.var x) = .var y → s.keeps y c = true

theorem keeps_iff : s.keeps x c = true ↔ ∃ d ∈ s.constraintsOf x, c.same d = true := by
  simp only [keeps, List.any_eq_true]

theorem keeps_keep_self {cs : List Constraint}
    (h : s.keeps x c = true ∨ ∃ d ∈ cs, c.same d = true) :
    (s.keep x cs).keeps x c = true := by
  rw [keeps_iff, constraintsOf_keep, if_pos rfl]
  obtain h | ⟨d, hd, hcd⟩ := h
  · obtain ⟨d, hd, hcd⟩ := keeps_iff.1 h
    exact ⟨d, List.mem_append_left _ hd, hcd⟩
  · exact ⟨d, List.mem_append_right _ hd, hcd⟩

theorem keeps_keep {cs : List Constraint} (h : s.keeps y c = true) :
    (s.keep x cs).keeps y c = true := by
  by_cases hyx : y = x
  · subst hyx
    exact keeps_keep_self (.inl h)
  · rw [keeps, constraintsOf_keep, if_neg hyx]
    exact h

theorem keeps_addConstraint (h : s.keeps y c = true) : (s.addConstraint x d).keeps y c = true := by
  simp only [addConstraint]
  split
  · exact h
  · exact keeps_keep h

/-- After a variable is pointed at another, its constraints are kept there too. -/
theorem keeps_pointAt (h : s.keeps x c = true ∨ s.keeps y c = true) :
    (s.pointAt x y).keeps y c = true := by
  by_cases hy : s.keeps y c = true
  · exact keeps_keep_self (s := s.bind x (.var y)) (.inl hy)
  · obtain ⟨d, hd, hcd⟩ := keeps_iff.1 (h.resolve_right hy)
    refine keeps_keep_self (s := s.bind x (.var y)) (.inr ⟨d, List.mem_filter.2 ⟨hd, ?_⟩, hcd⟩)
    -- what is kept at the target already is not carried over
    rw [Bool.not_eq_true']
    refine Bool.eq_false_iff.2 fun hkd => hy ?_
    obtain ⟨e, he, hde⟩ := keeps_iff.1 hkd
    exact keeps_iff.2 ⟨e, he, Constraint.same_trans hcd hde⟩

theorem Update.watches (h : Update K s t) (hs : s.Acyclic) (hc : s.Watches c) : t.Watches c := by
  intro x hx y hxy
  cases h with
  | @assign z a hz _ =>
    rw [resolve_assign hs hz] at hxy
    obtain hr | ⟨-, hlit⟩ := Term.of_replace_eq hxy
    · exact hc x hx y hr
    · cases hlit
  | @point z v hz hv hne _ =>
    rw [resolve_pointAt hs hz hv hne] at hxy
    obtain hr | ⟨hr, hvar⟩ := Term.of_replace_eq hxy
    · exact keeps_keep (s := s.bind z (.var v)) (hc x hx y hr)
    · cases hvar
      exact keeps_pointAt (.inl (hc x hx z hr))
  | fault reason =>
    rw [resolve_withFault] at hxy
    exact hc x hx y hxy
  | register z _ =>
    rw [resolve_addConstraint] at hxy
    exact keeps_addConstraint (hc x hx y hxy)

theorem Updates.watches (h : Updates K s t) (hs : s.WellFormed) (hc : s.Watches c) :
    t.Watches c := by
  induction h with
  | refl s => exact hc
  | step h _ ih => exact ih (h.wellFormed hs) (h.watches hs.acyclic hc)

/-! ## Constraints that become ready -/

/-- Every watched constraint that has become ready is satisfied, unless there is a fault. -/
def Settles (K : Constraint → Prop) (s t : State) : Prop :=
  t.isFaulted = false → ∀ c, K c → s.Watches c → s.isReady c = false → t.isReady c = true →
    c.Satisfied t

theorem settles_of_ready (h : ∀ c, t.isReady c = true → s.isReady c = true) : Settles K s t := by
  intro _ c _ _ hs ht
  rw [h c ht] at hs
  cases hs

theorem settles_refl (s : State) : Settles K s s := settles_of_ready fun _ h => h

theorem Settles.trans (hdec : ∀ c, K c → c.Decided) (hs : s.WellFormed) (hsu : Updates K s u)
    (hut : Updates K u t) (h : Settles K s u) (h' : Settles K u t) : Settles K s t := by
  intro ht c hc hw hr hr'
  have hext : u.Extends t := hut.extends (hsu.wellFormed hs)
  cases hu : u.isReady c with
  | true => exact (h (hext.live ht) c hc hw hr hu).mono (hdec c hc) hu hext
  | false => exact h' ht c hc (hsu.watches hs hw) hu hr'

/-- A constraint becomes ready on a pointer only if it was ready before. -/
theorem isReady_pointAt (hs : s.Acyclic) (hx : s.bindings.get? x = none)
    (hy : s.bindings.get? y = none) (hne : x ≠ y) (h : (s.pointAt x y).isReady c = true) :
    s.isReady c = true := by
  refine isReady_iff.2 fun z hz => ?_
  obtain ⟨a, ha⟩ := hasValue_iff.1 (isReady_iff.1 h z hz)
  rw [resolve_pointAt hs hx hy hne] at ha
  obtain hr | ⟨-, hvar⟩ := Term.of_replace_eq ha
  · exact hasValue_iff.2 ⟨a, hr⟩
  · cases hvar

/-- A value wakes, up to its handle, every watched constraint that it makes ready. -/
theorem exists_woken (hs : s.Acyclic) (hx : s.bindings.get? x = none) {a : Literal}
    (hK : Consistent K) (hp : s.Pending K) (hc : K c) (hw : s.Watches c)
    (hr : s.isReady c = false) (hr' : (s.bind x (.lit a)).isReady c = true) :
    ∃ d ∈ (s.bind x (.lit a)).woken x, c.same d = true ∧ K d ∧ c.check = d.check := by
  -- some variable of the constraint had no value, so its chain ended in `x`
  obtain ⟨z, hz, hzv⟩ : ∃ z ∈ c.vars, s.hasValue z = false := by
    by_contra hno
    refine absurd (isReady_iff.2 fun z hz => ?_) (by rw [hr]; exact Bool.false_ne_true)
    cases hzv : s.hasValue z with
    | true => rfl
    | false => exact absurd ⟨z, hz, hzv⟩ hno
  obtain ⟨b, hb⟩ := hasValue_iff.1 (isReady_iff.1 hr' z hz)
  rw [resolve_assign hs hx] at hb
  have hzx : s.resolve (.var z) = .var x := by
    obtain hlit | ⟨hvar, -⟩ := Term.of_replace_eq hb
    · rw [hasValue_iff.2 ⟨b, hlit⟩] at hzv
      cases hzv
    · exact hvar
  obtain ⟨d, hd, hcd⟩ := keeps_iff.1 (hw z hz x hzx)
  obtain ⟨hvars, hcheck⟩ := hK c d hc (hp x d hd) hcd
  refine ⟨d, List.mem_filter.2 ⟨hd, ?_⟩, hcd, hp x d hd, hcheck⟩
  rw [isReady, ← hvars]
  exact hr'

end State

/-- What the unifier reaches settles the constraints that became ready on the way. -/
def Unifier.Settling (K : Constraint → Prop) (unify : Unifier) : Prop :=
  ∀ ⦃s t d e⦄, s.WellFormed → s.Pending K → (unify s d e).value = .reached t →
    State.Settles K s t

section Settling

open State Constraint

variable {K : Constraint → Prop} (hK : Consistent K) (hdec : ∀ c, K c → c.Decided)
  {nested : Unifier} (hn : nested.Updating) (hj : nested.Joining) (hn' : nested.Settling K)
  {s t : State}

include hdec hn hj hn'

theorem pairs_settles {pairs : List (Term × Term)} (hs : s.WellFormed) (hp : s.Pending K)
    (h : (nested.pairs pairs s).value = .reached t) :
    Settles K s t ∧ (t.isFaulted = false →
      ∀ p ∈ pairs, (t.resolve p.1).same (t.resolve p.2) = true) := by
  induction pairs generalizing s with
  | nil =>
    cases h
    exact ⟨settles_refl _, fun _ p hp => by cases hp⟩
  | cons p rest ih =>
    obtain ⟨u, hu, h⟩ := pairs_cons_reached.1 h
    have hsu : Updates K s u := hn hs hu
    have hut : Updates K u t := hn.pairs (hsu.wellFormed hs) h
    obtain ⟨hsettles, hrest⟩ := ih (hsu.wellFormed hs) (hsu.pending hp) h
    refine ⟨.trans hdec hs hsu hut (hn' hs hp hu) hsettles, fun ht q hq => ?_⟩
    have hext : u.Extends t := hut.extends (hsu.wellFormed hs)
    cases List.mem_cons.1 hq with
    | inl e =>
      rw [e]
      exact hext.same (hj hs hu (hext.live ht))
    | inr hq => exact hrest ht q hq

/-- A check that goes through without a fault leaves its constraint satisfied. -/
theorem runWith_settles {c : Constraint} (hs : s.WellFormed) (hp : s.Pending K)
    (h : (c.runWith nested s).value = .reached t) :
    Settles K s t ∧ (t.isFaulted = false → c.Satisfied t) := by
  cases hc : c.check with
  | test terms judge =>
    rw [value_runWith_test hc] at h
    simp only [Constraint.Satisfied, hc]
    split at h
    · rename_i haccept
      cases h
      exact ⟨settles_refl _, fun _ => haccept⟩
    · cases h
    · cases h
      constructor
      · intro ht
        cases ht
      · intro ht
        cases ht
  | unify pairs =>
    rw [value_runWith_unify hc] at h
    simp only [Constraint.Satisfied, hc]
    exact pairs_settles hdec hn hj hn' hs hp h

theorem wake_settles {cs : List Constraint} (hs : s.WellFormed) (hp : s.Pending K)
    (hcs : ∀ c ∈ cs, K c ∧ s.isReady c = true) (h : (nested.wake cs s).value = .reached t) :
    Settles K s t ∧ (t.isFaulted = false → ∀ c ∈ cs, c.Satisfied t) := by
  induction cs generalizing s with
  | nil =>
    cases h
    exact ⟨settles_refl _, fun _ c hc => by cases hc⟩
  | cons c cs ih =>
    cases hf : s.isFaulted with
    | true =>
      rw [wake_faulted hf] at h
      cases h
      refine ⟨settles_refl _, fun ht => ?_⟩
      rw [hf] at ht
      cases ht
    | false =>
      obtain ⟨u, hu, h⟩ := (wake_cons_reached hf).1 h
      obtain ⟨hsettles, hsat⟩ := runWith_settles hdec hn hj hn' hs hp hu
      have hsu : Updates K s u := hn.runWith hs hu
      have hwu := hsu.wellFormed hs
      have hut : Updates K u t := hn.wake hwu h
      obtain ⟨hsettles', hrest⟩ := ih hwu (hsu.pending hp)
        (fun d hd => ⟨(hcs d (List.mem_cons_of_mem _ hd)).1,
          (hsu.extends hs).isReady (hcs d (List.mem_cons_of_mem _ hd)).2⟩) h
      refine ⟨.trans hdec hs hsu hut hsettles hsettles', fun ht d hd => ?_⟩
      have hext : u.Extends t := hut.extends hwu
      cases List.mem_cons.1 hd with
      | inl e =>
        rw [e]
        obtain ⟨hc, hr⟩ := hcs c List.mem_cons_self
        exact (hsat (hext.live ht)).mono (hdec c hc) ((hsu.extends hs).isReady hr) hext
      | inr hd => exact hrest ht d hd

include hK

theorem unifyWith_settling : Unifier.Settling K (State.unifyWith nested) := by
  intro s t d e hs hp h
  cases hf : s.isFaulted with
  | true =>
    rw [unifyWith_faulted hf] at h
    cases h
    exact settles_refl _
  | false =>
    have hcase := unifyWith_cases nested hf d e
    generalize State.unifyWith nested s d e = o at h hcase
    cases hcase with
    | equal _ => cases h; exact settles_refl _
    | clash _ => cases h
    | point hpq hne _ =>
      cases h
      exact settles_of_ready fun c hc =>
        isReady_pointAt hs.acyclic (hpq.free hs.acyclic) (hpq.swap.free hs.acyclic) hne hc
    | @assign x a hpq ha =>
      have hx := hpq.free hs.acyclic
      have hb : Update K s (s.bind x (.lit a)) := .assign hx ha
      have hwoken : ∀ c ∈ (s.bind x (.lit a)).woken x, K c ∧ (s.bind x (.lit a)).isReady c = true :=
        fun c hc => ⟨hp x c (List.mem_filter.1 hc).1, (List.mem_filter.1 hc).2⟩
      obtain ⟨hsettles, hsat⟩ :=
        wake_settles hdec hn hj hn' (hb.wellFormed hs) (hb.pending hp) hwoken h
      intro ht c hc hw hr hr'
      cases hbr : (s.bind x (.lit a)).isReady c with
      | false => exact hsettles ht c hc (hb.watches hs.acyclic hw) hbr hr'
      | true =>
        obtain ⟨c', hc', -, -, hcheck⟩ := exists_woken hs.acyclic hx hK hp hc hw hr hbr
        exact (satisfied_congr hcheck).2 (hsat ht c' hc')

end Settling

namespace State

open Constraint

variable {K : Constraint → Prop} {s t : State} {c : Constraint}

theorem unifyAt_settling (hK : Consistent K) (hdec : ∀ c, K c → c.Decided) (depth : Nat) :
    Unifier.Settling K (unifyAt depth) := by
  induction depth with
  | zero =>
    refine unifyWith_settling hK hdec exhausted_updating ?_ ?_
    · intro s t d e _ h
      cases h
    · intro s t d e _ _ h
      cases h
  | succ depth ih =>
    exact unifyWith_settling hK hdec (unifyAt_updating depth) (unifyAt_joining depth) ih

theorem unifyFully_settling (hK : Consistent K) (hdec : ∀ c, K c → c.Decided) :
    Unifier.Settling K unifyFully := by
  intro s t d e hs hp h
  exact unifyAt_settling hK hdec _ hs hp h

/-! ## Registering -/

theorem updates_register (hc : K c) (s : State) (xs : List Var) :
    Updates K s (s.register c xs) := by
  induction xs generalizing s with
  | nil => exact .refl s
  | cons x xs ih => exact .step (.register s x hc) (ih _)

theorem resolve_register (s : State) (xs : List Var) (e : Term) :
    (s.register c xs).resolve e = s.resolve e := by
  induction xs generalizing s with
  | nil => rfl
  | cons x xs ih => exact (ih (s.addConstraint x c)).trans (resolve_addConstraint s x c e)

theorem fault_register (s : State) (xs : List Var) : (s.register c xs).fault = s.fault := by
  induction xs generalizing s with
  | nil => rfl
  | cons x xs ih => exact (ih (s.addConstraint x c)).trans (fault_addConstraint s x c)

theorem isReady_register (s : State) (xs : List Var) (d : Constraint) :
    (s.register c xs).isReady d = s.isReady d := isReady_congr (fun _ => resolve_register s xs _) d

theorem keeps_register (xs : List Var) {y : Var} {d : Constraint} (h : s.keeps y d = true) :
    (s.register c xs).keeps y d = true := by
  induction xs generalizing s with
  | nil => exact h
  | cons x xs ih => exact ih (keeps_addConstraint h)

theorem keeps_addConstraint_self {x y : Var} (h : s.resolve (.var x) = .var y) :
    (s.addConstraint x c).keeps y c = true := by
  have hkeeper : s.keeper x = y := by simp only [keeper, h]
  simp only [addConstraint, hkeeper]
  split
  · assumption
  · exact keeps_keep_self (.inr ⟨c, List.mem_singleton_self c, Constraint.same_refl c⟩)

theorem keeps_register_self {xs : List Var} {x y : Var} (hx : x ∈ xs)
    (h : s.resolve (.var x) = .var y) : (s.register c xs).keeps y c = true := by
  induction xs generalizing s with
  | nil => cases hx
  | cons z xs ih =>
    cases List.mem_cons.1 hx with
    | inl e =>
      rw [e] at h
      exact keeps_register xs (keeps_addConstraint_self h)
    | inr hx => exact ih hx (by rw [resolve_addConstraint]; exact h)

theorem watches_register (s : State) (c : Constraint) : (s.register c c.vars).Watches c := by
  intro x hx y hy
  rw [resolve_register] at hy
  exact keeps_register_self hx hy

end State

/-! ## Branches -/

namespace Leaf

open State

variable {K : Constraint → Prop} {s t : State}

/-- The constraint of the step, if it is one, satisfies `K`. -/
def Over (K : Constraint → Prop) : Leaf → Prop
  | .equal _ _ => True
  | .constraint c => K c

/-- What a step that was taken leaves behind: equal terms, or a constraint that is watched and, once
it is ready, satisfied. -/
def Holds (t : State) : Leaf → Prop
  | .equal d e => (t.resolve d).same (t.resolve e) = true
  | .constraint c => t.Watches c ∧ (t.isReady c = true → c.Satisfied t)

theorem Holds.mono {l : Leaf} (h : l.Holds s) (hdec : ∀ c, K c → c.Decided) (hl : l.Over K)
    (hs : s.WellFormed) (hst : Updates K s t) (hsettles : Settles K s t)
    (ht : t.isFaulted = false) : l.Holds t := by
  have hext : s.Extends t := hst.extends hs
  cases l with
  | equal d e => exact hext.same h
  | constraint c =>
    obtain ⟨hw, hsat⟩ := h
    refine ⟨hst.watches hs hw, fun hr' => ?_⟩
    cases hr : s.isReady c with
    | true => exact (hsat hr).mono (hdec c hl) hr hext
    | false => exact hsettles ht c hl hw hr hr'

/-- Taking a step updates the state, settles what becomes ready, and leaves the step behind. -/
theorem run_holds (hK : Constraint.Consistent K) (hdec : ∀ c, K c → c.Decided) {l : Leaf}
    (hl : l.Over K) (hs : s.WellFormed) (hp : s.Pending K) (h : (l.run s).value = some t) :
    Updates K s t ∧ Settles K s t ∧ (t.isFaulted = false → l.Holds t) := by
  cases l with
  | equal d e =>
    have hr := unify_eq_some.1 h
    exact ⟨unifyFully_updating hs hr, unifyFully_settling hK hdec hs hp hr,
      unifyFully_joining hs hr⟩
  | constraint c =>
    have hreg := updates_register (K := K) hl s c.vars
    have hready : Settles K s (s.register c c.vars) :=
      settles_of_ready fun d hd => by rw [← hd, isReady_register]
    simp only [run, State.post] at h
    split at h
    · have hcheck := check_eq_some.1 h
      have hu : Updates K (s.register c c.vars) t :=
        unifyFully_updating.runWith (hreg.wellFormed hs) hcheck
      obtain ⟨hsettles, hsat⟩ := runWith_settles hdec unifyFully_updating unifyFully_joining
        (unifyFully_settling hK hdec) (hreg.wellFormed hs) (hreg.pending hp) hcheck
      exact ⟨hreg.trans hu, .trans hdec hs hreg hu hready hsettles,
        fun ht => ⟨hu.watches (hreg.wellFormed hs) (watches_register s c), fun _ => hsat ht⟩⟩
    · rename_i hnot
      cases h
      refine ⟨hreg, hready, fun _ => ⟨watches_register s c, fun hr => ?_⟩⟩
      rw [isReady_register] at hr
      exact absurd hr hnot

end Leaf

section Reach

open State

variable {K : Constraint → Prop} {s t : State}

/-- Every step of a branch holds in the state that the branch reaches. -/
theorem reach_holds (hK : Constraint.Consistent K) (hdec : ∀ c, K c → c.Decided) {b : List Leaf}
    (hb : ∀ l ∈ b, l.Over K) (hs : s.WellFormed) (hp : s.Pending K) (h : reach b s = some t) :
    Updates K s t ∧ Settles K s t ∧ ∀ l ∈ b, l.Holds t := by
  induction b generalizing s with
  | nil =>
    cases (success?_eq_some.1 h).1
    exact ⟨.refl _, settles_refl _, fun l hl => by cases hl⟩
  | cons l b ih =>
    have ht := live_of_reach h
    obtain ⟨u, hu, hlive, h⟩ := reach_cons_some.1 h
    obtain ⟨hsu, hset, hl⟩ := l.run_holds hK hdec (hb l List.mem_cons_self) hs hp hu
    have hwu := hsu.wellFormed hs
    obtain ⟨hut, hset', hrest⟩ :=
      ih (fun l hl => hb l (List.mem_cons_of_mem _ hl)) hwu (hsu.pending hp) h
    refine ⟨hsu.trans hut, .trans hdec hs hsu hut hset hset', fun l' hl' => ?_⟩
    cases List.mem_cons.1 hl' with
    | inl e =>
      rw [e]
      exact (hl hlive).mono hdec (hb l List.mem_cons_self) hwu hut hset' ht
    | inr hl' => exact hrest l' hl'

theorem Goal.Built.over {g : Goal} (hg : g.Built K) : ∀ b ∈ g.branches, ∀ l ∈ b, l.Over K := by
  induction hg with
  | succeed =>
    intro b hb l hl
    cases List.mem_singleton.1 hb
    cases hl
  | fail =>
    intro b hb
    cases hb
  | equal d e =>
    intro b hb l hl
    cases List.mem_singleton.1 hb
    cases List.mem_singleton.1 hl
    trivial
  | constraint hc =>
    intro b hb l hl
    cases List.mem_singleton.1 hb
    cases List.mem_singleton.1 hl
    exact hc
  | or _ ih =>
    intro b hb
    rw [Goal.branches, Goal.branchesAny_eq] at hb
    obtain ⟨g, hg, hb⟩ := List.mem_flatMap.1 hb
    exact ih g hg b hb
  | and _ _ ih ih' =>
    intro b hb l hl
    rw [Goal.branches] at hb
    obtain ⟨b₁, hb₁, hb⟩ := List.mem_flatMap.1 hb
    obtain ⟨b₂, hb₂, rfl⟩ := List.mem_map.1 hb
    cases List.mem_append.1 hl with
    | inl hl => exact ih b₁ hb₁ l hl
    | inr hl => exact ih' b₂ hb₂ l hl

end Reach

/-! ## A check that wakes another check -/

/-- As soon as `x` has a value, `y` has the same one. -/
def Constraint.copy (x y : Var) : Constraint :=
  ⟨.built 0, [x], .unify [(.var x, .var y)], []⟩

/-- The values of `y` and `z` differ. -/
def Constraint.apart (y z : Var) : Constraint :=
  ⟨.built 1, [y, z], .distinct (.var y) (.var z), []⟩

/-- One of the two constraints. -/
def Constraint.CopyOrApart (x y z : Var) (c : Constraint) : Prop := c = copy x y ∨ c = apart y z

theorem Constraint.consistent_copyOrApart (x y z : Var) : Consistent (CopyOrApart x y z) := by
  rintro c d (rfl | rfl) (rfl | rfl) h
  · exact ⟨rfl, rfl⟩
  · cases h
  · cases h
  · exact ⟨rfl, rfl⟩

theorem Constraint.plain_copyOrApart {x y z : Var} {c : Constraint} (h : CopyOrApart x y z c) :
    c.Plain := by
  obtain rfl | rfl := h
  · trivial
  · intro s t hst
    obtain ⟨a, a', ha, ha', haa⟩ := hst y List.mem_cons_self
    obtain ⟨b, b', hb, hb', hbb⟩ := hst z (List.mem_cons_of_mem _ List.mem_cons_self)
    rw [State.valueOf?_eq_some] at ha ha' hb hb'
    have hsame : a.same b = a'.same b' := by
      rw [Bool.eq_iff_iff]
      constructor
      · exact fun h => Literal.same_trans (Literal.same_symm haa) (Literal.same_trans h hbb)
      · exact fun h => Literal.same_trans haa (Literal.same_trans h (Literal.same_symm hbb))
    simp only [List.map_cons, List.map_nil, ha, ha', hb, hb', Term.same, hsame]
    refine ⟨rfl, fun reason => ?_⟩
    split
    · exact fun h => by cases h
    · exact fun h => by cases h

/-- The copied variable is an alias of `w`, which gets its value last. -/
def Goal.copying (w x y z : Var) : List Goal :=
  [.constraint (.copy x y), .equal w x, .constraint (.apart y z), .equal z (.lit (.word 1)),
    .or [.equal w (.lit (.word 1)), .equal w (.lit (.word 2))]]

/-- A branch of their conjunction. -/
def Goal.copied (w x y z : Var) (a : Literal) : List Leaf :=
  [.constraint (.copy x y), .equal w x, .constraint (.apart y z), .equal z (.lit (.word 1)),
    .equal w (.lit a)]

theorem Goal.branches_copying (w x y z : Var) :
    (andAll (copying w x y z)).branches
      = [copied w x y z (.word 1), copied w x y z (.word 2)] := rfl

theorem Goal.built_copying (w x y z : Var) :
    ∀ g ∈ copying w x y z, g.Built (Constraint.CopyOrApart x y z) := by
  simp only [copying, List.forall_mem_cons, List.not_mem_nil, false_imp_iff, implies_true, and_true]
  refine ⟨.constraint (.inl rfl), .equal _ _, .constraint (.inr rfl), .equal _ _,
    .or fun g hg => ?_⟩
  cases List.mem_cons.1 hg with
  | inl e => rw [e]; exact .equal _ _
  | inr hg => rw [List.mem_singleton.1 hg]; exact .equal _ _

/-! ## Enforcement -/

/-- The answers of a goal are the states that its branches reach, and there every constraint met on
the branch whose variables all have values is satisfied. -/
theorem constraints_enforced {K : Constraint → Prop} (hK : Constraint.Consistent K)
    (hdec : ∀ c, K c → c.Decided) {g : Goal} (hg : g.Built K) :
    ∃ is, Stream.Drains g.run.value is
      ∧ (Stream.live is).Perm (g.branches.filterMap (reach · .empty))
      ∧ ∀ b ∈ g.branches, ∀ t, reach b .empty = some t →
        ∀ c, .constraint c ∈ b → t.isReady c = true → c.Satisfied t := by
  obtain ⟨is, his, hperm, -⟩ := hg.yields .empty
  refine ⟨is, his, ?_, fun b hb t ht c hc hr => ?_⟩
  · rw [← g.answers_eq_branches rfl]
    exact hperm.filterMap _
  · obtain ⟨-, -, hholds⟩ :=
      reach_holds hK hdec (hg.over b hb) State.wellFormed_empty (State.pending_empty K) ht
    exact (hholds _ hc).2 hr

/-- The value of `w` is copied to `y` before the constraint on `y` and `z`, declared later, is
checked. -/
theorem constraints_enforced_copying :
    ∃ t, reach (Goal.copied (.any "w") (.any "x") (.any "y") (.any "z") (.word 2)) .empty = some t
      ∧ t.isReady (.apart (.any "y") (.any "z")) = true
      ∧ (Constraint.apart (.any "y") (.any "z")).Satisfied t := by
  obtain ⟨-, -, -, henforced⟩ := constraints_enforced
    (Constraint.consistent_copyOrApart (.any "x") (.any "y") (.any "z"))
    (fun _ hc => (Constraint.plain_copyOrApart hc).decided)
    (Goal.built_andAll (Goal.built_copying (.any "w") (.any "x") (.any "y") (.any "z")))
  refine ⟨_, rfl, rfl, henforced
    (Goal.copied (.any "w") (.any "x") (.any "y") (.any "z") (.word 2)) ?_ _ rfl _ ?_ rfl⟩
  · rw [Goal.branches_copying]
    exact List.mem_cons_of_mem _ List.mem_cons_self
  · exact List.mem_cons_of_mem _ (List.mem_cons_of_mem _ List.mem_cons_self)

end Goalbase

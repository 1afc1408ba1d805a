import Goalbase.Proofs.Updates

/-!
# Goalbase.Proofs.Unifying

One level of unification, taken apart.

`unifyWith_cases` says all that a level of unification can do to the two ends it finds: accept equal
ends, reject a clash, point one variable at another, or give a variable a literal and wake its
constraints. From it follow, by induction on the depth, that unification is a run of updates
(`unifyFully_updating`) and that it makes its terms equal (`unifyFully_joining`).
-/

namespace Goalbase

/-- A literal for every variable. -/
abbrev Assignment := Var → Literal

namespace Assignment

/-- The literal of a term. -/
def value (σ : Assignment) : Term → Literal
  | .lit a => a
  | .var x => σ x

/-- Every variable has a literal of its kind. -/
def Typed (σ : Assignment) : Prop := ∀ x : Var, x.kind.admits (σ x) = true

end Assignment

/-- No literals of the declared kinds make the two terms equal. -/
def Clash (p q : Term) : Prop :=
  ∀ σ : Assignment, σ.Typed → (σ.value p).same (σ.value q) = false

/-- The two terms, in either order. -/
def Either (p q d e : Term) : Prop := (p = d ∧ q = e) ∨ (p = e ∧ q = d)

theorem Outcome.state?_eq_some {o : Outcome} {t : State} :
    o.state? = some t ↔ o = .reached t := by
  cases o with
  | reached s =>
    constructor
    · intro h
      exact congrArg Outcome.reached (Option.some.inj h)
    · intro h
      exact congrArg some (Outcome.reached.inj h)
  | rejected =>
    constructor
    · intro h
      cases h
    · intro h
      cases h
  | exhausted =>
    constructor
    · intro h
      cases h
    · intro h
      cases h

/-- A step after a step that reached a state. -/
theorem Outcome.next_reached {o : Outcome} {f : State → Outcome} {t : State} :
    (match o with
      | .reached u => f u
      | o => o) = .reached t ↔ ∃ u, o = .reached u ∧ f u = .reached t := by
  cases o with
  | reached u =>
    constructor
    · intro h
      exact ⟨u, rfl, h⟩
    · rintro ⟨v, hv, h⟩
      cases hv
      exact h
  | rejected =>
    constructor
    · intro h
      cases h
    · rintro ⟨v, hv, -⟩
      cases hv
  | exhausted =>
    constructor
    · intro h
      cases h
    · rintro ⟨v, hv, -⟩
      cases hv

/-- What a level of unification does to the ends of two chains. -/
inductive Unifying (nested : Unifier) (s : State) (p q : Term) : Traced Outcome → Prop where
  | equal (h : p.same q = true) : Unifying nested s p q (.pure (.reached s))
  | clash (h : Clash p q) : Unifying nested s p q (.pure .rejected)
  | point {x y : Var} (hpq : Either p q (.var x) (.var y)) (hne : x ≠ y)
      (hk : x.kind.Covers y.kind) : Unifying nested s p q (.pure (.reached (s.pointAt x y)))
  | assign {x : Var} {a : Literal} (hpq : Either p q (.var x) (.lit a))
      (ha : x.kind.admits a = true) :
      Unifying nested s p q (nested.wake ((s.bind x (.lit a)).woken x) (s.bind x (.lit a)))

theorem Clash.symm {p q : Term} (h : Clash p q) : Clash q p := fun σ hσ => by
  rw [Literal.same_comm, h σ hσ]

theorem clash_lit {a b : Literal} (h : a.same b = false) : Clash (.lit a) (.lit b) :=
  fun _ _ => h

theorem clash_var_lit {x : Var} {a : Literal} (h : x.kind.admits a = false) :
    Clash (.var x) (.lit a) := by
  intro σ hσ
  refine Bool.eq_false_iff.2 fun hsame => ?_
  have hk := Kind.admits_of_same (a := σ x) (b := a) hsame x.kind
  rw [hσ x, h] at hk
  cases hk

theorem clash_var {x y : Var} (h : x.kind.meet? y.kind = none) : Clash (.var x) (.var y) := by
  intro σ hσ
  refine Bool.eq_false_iff.2 fun hsame => ?_
  have hx := Kind.admits_of_same (a := σ x) (b := σ y) hsame x.kind
  have hnone := Kind.admits_of_meet?_eq_none h (σ y)
  rw [← hx, hσ x, hσ y] at hnone
  cases hnone

section Level

variable {nested : Unifier} {s t : State} {x : Var} {a : Literal}

theorem assign_admitted (h : x.kind.admits a = true) :
    nested.assign s x a = nested.wake ((s.bind x (.lit a)).woken x) (s.bind x (.lit a)) :=
  if_pos h

theorem assign_refused (h : x.kind.admits a = false) :
    nested.assign s x a = .pure .rejected :=
  if_neg (by rw [h]; exact Bool.false_ne_true)

theorem unifyWith_faulted (h : s.isFaulted = true) (d e : Term) :
    s.unifyWith nested d e = .pure (.reached s) := if_pos h

theorem unifyWith_cases (nested : Unifier) (h : s.isFaulted = false) (d e : Term) :
    Unifying nested s (s.resolve d) (s.resolve e) (s.unifyWith nested d e) := by
  simp only [State.unifyWith, if_neg (Bool.eq_false_iff.1 h)]
  cases s.resolve d with
  | lit a =>
    cases s.resolve e with
    | lit b =>
      cases hab : a.same b with
      | true =>
        simp only [hab, if_true]
        exact .equal hab
      | false =>
        simp only [hab, Bool.false_eq_true, if_false]
        exact .clash (clash_lit hab)
    | var y =>
      cases hk : y.kind.admits a with
      | true =>
        simp only [assign_admitted hk]
        exact .assign (.inr ⟨rfl, rfl⟩) hk
      | false =>
        simp only [assign_refused hk]
        exact .clash (clash_var_lit hk).symm
  | var x =>
    cases s.resolve e with
    | lit b =>
      cases hk : x.kind.admits b with
      | true =>
        simp only [assign_admitted hk]
        exact .assign (.inl ⟨rfl, rfl⟩) hk
      | false =>
        simp only [assign_refused hk]
        exact .clash (clash_var_lit hk)
    | var y =>
      by_cases hxy : x = y
      · simp only [if_pos hxy]
        exact .equal (Term.same_of_eq (congrArg Term.var hxy))
      · simp only [if_neg hxy]
        cases hk : x.kind.meet? y.kind with
        | none => exact .clash (clash_var hk)
        | some k =>
          obtain ⟨hx, hy⟩ := Kind.covers_of_meet? hk
          by_cases hyk : y.kind = k
          · simp only [if_pos hyk]
            rw [← hyk] at hx
            exact .point (.inl ⟨rfl, rfl⟩) hxy hx
          · simp only [if_neg hyk]
            -- the meet is one of the two kinds
            cases Kind.meet?_eq_left_or_right hk with
            | inl hxk =>
              rw [hxk] at hy
              exact .point (.inr ⟨rfl, rfl⟩) (Ne.symm hxy) hy
            | inr hyk' => exact absurd hyk'.symm hyk

/-! ## Checks and the constraints that are woken -/

variable {c : Constraint}

theorem value_runWith_test {terms : List Term} {judge : List Term → Verdict}
    (h : c.check = .test terms judge) :
    (c.runWith nested s).value = match judge (terms.map s.resolve) with
      | .accept => .reached s
      | .reject => .rejected
      | .fault reason => .reached (s.withFault reason) := by
  simp only [Constraint.runWith, h, Traced.after]
  cases judge (terms.map s.resolve) <;> rfl

theorem value_runWith_unify {pairs : List (Term × Term)} (h : c.check = .unify pairs) :
    (c.runWith nested s).value = (nested.pairs pairs s).value := by
  simp only [Constraint.runWith, h, Traced.after]

theorem value_pairs_cons (d e : Term) (rest : List (Term × Term)) :
    (nested.pairs ((d, e) :: rest) s).value = match (nested s d e).value with
      | .reached u => (nested.pairs rest u).value
      | o => o := by
  simp only [Unifier.pairs, Traced.value_bind]
  cases (nested s d e).value <;> rfl

theorem pairs_cons_reached {d e : Term} {rest : List (Term × Term)} :
    (nested.pairs ((d, e) :: rest) s).value = .reached t ↔
      ∃ u, (nested s d e).value = .reached u ∧ (nested.pairs rest u).value = .reached t := by
  rw [value_pairs_cons]
  exact Outcome.next_reached

theorem wake_faulted (h : s.isFaulted = true) (cs : List Constraint) :
    nested.wake cs s = .pure (.reached s) := by
  cases cs with
  | nil => rfl
  | cons c cs => exact if_pos h

theorem value_wake_cons (h : s.isFaulted = false) (cs : List Constraint) :
    (nested.wake (c :: cs) s).value = match (c.runWith nested s).value with
      | .reached u => (nested.wake cs u).value
      | o => o := by
  simp only [Unifier.wake, if_neg (Bool.eq_false_iff.1 h), Traced.value_bind]
  cases (c.runWith nested s).value <;> rfl

theorem wake_cons_reached (h : s.isFaulted = false) {cs : List Constraint} :
    (nested.wake (c :: cs) s).value = .reached t ↔
      ∃ u, (c.runWith nested s).value = .reached u ∧ (nested.wake cs u).value = .reached t := by
  rw [value_wake_cons h]
  exact Outcome.next_reached

end Level

/-! ## Unification as a run of updates -/

namespace Either

variable {p q d e : Term}

theorem swap (h : Either p q d e) : Either p q e d := Or.symm h

theorem symm (h : Either p q d e) : Either d e p q := by
  obtain ⟨rfl, rfl⟩ | ⟨rfl, rfl⟩ := h
  · exact .inl ⟨rfl, rfl⟩
  · exact .inr ⟨rfl, rfl⟩

theorem free {s : State} {x : Var} (hs : s.Acyclic) {d e r : Term}
    (h : Either (s.resolve d) (s.resolve e) (.var x) r) : s.bindings.get? x = none := by
  obtain ⟨h, -⟩ | ⟨-, h⟩ := h
  · exact hs.free_of_resolve h
  · exact hs.free_of_resolve h

/-- Whatever makes the ends equal makes the terms equal. -/
theorem same {f : Term → Term} (h : Either p q d e) (hf : (f d).same (f e) = true) :
    (f p).same (f q) = true := by
  obtain ⟨rfl, rfl⟩ | ⟨rfl, rfl⟩ := h
  · exact hf
  · exact Term.same_symm hf

end Either

/-- What the unifier reaches, it reaches by updates; what they register satisfies `K`. -/
def Unifier.UpdatingBy (K : Constraint → Prop) (unify : Unifier) : Prop :=
  ∀ ⦃s t d e⦄, s.WellFormed → (unify s d e).value = .reached t → State.Updates K s t

/-- What the unifier reaches, it reaches by updates that register nothing. -/
def Unifier.Updating (unify : Unifier) : Prop :=
  ∀ ⦃K s t d e⦄, s.WellFormed → (unify s d e).value = .reached t → State.Updates K s t

namespace Unifier.UpdatingBy

open State

variable {K : Constraint → Prop} {nested : Unifier} (hn : nested.UpdatingBy K) {s t : State}

include hn

theorem pairs {pairs : List (Term × Term)} (hs : s.WellFormed)
    (h : (nested.pairs pairs s).value = .reached t) : Updates K s t := by
  induction pairs generalizing s with
  | nil => cases h; exact .refl _
  | cons p rest ih =>
    obtain ⟨u, hu, h⟩ := pairs_cons_reached.1 h
    have hsu : Updates K s u := hn hs hu
    exact hsu.trans (ih (hsu.wellFormed hs) h)

theorem runWith {c : Constraint} (hs : s.WellFormed)
    (h : (c.runWith nested s).value = .reached t) : Updates K s t := by
  cases hc : c.check with
  | test terms judge =>
    rw [value_runWith_test hc] at h
    split at h
    · cases h; exact .refl _
    · cases h
    · cases h; exact .single (.fault s _)
  | unify pairs =>
    rw [value_runWith_unify hc] at h
    exact hn.pairs hs h

theorem wake {cs : List Constraint} (hs : s.WellFormed)
    (h : (nested.wake cs s).value = .reached t) : Updates K s t := by
  induction cs generalizing s with
  | nil => cases h; exact .refl _
  | cons c cs ih =>
    cases hf : s.isFaulted with
    | true =>
      rw [wake_faulted hf] at h
      cases h
      exact .refl _
    | false =>
      obtain ⟨u, hu, h⟩ := (wake_cons_reached hf).1 h
      have hsu : Updates K s u := hn.runWith hs hu
      exact hsu.trans (ih (hsu.wellFormed hs) h)

theorem unifyWith : UpdatingBy K (State.unifyWith nested) := by
  intro s t d e hs h
  cases hf : s.isFaulted with
  | true =>
    rw [unifyWith_faulted hf] at h
    cases h
    exact .refl _
  | false =>
    have hcase := unifyWith_cases nested hf d e
    generalize State.unifyWith nested s d e = o at h hcase
    cases hcase with
    | equal _ => cases h; exact .refl _
    | clash _ => cases h
    | point hpq hne hk =>
      cases h
      exact .single (.point (hpq.free hs.acyclic) (hpq.swap.free hs.acyclic) hne hk)
    | assign hpq ha =>
      have hb : Update K s _ := .assign (hpq.free hs.acyclic) ha
      exact .step hb (hn.wake (hb.wellFormed hs) h)

end Unifier.UpdatingBy

namespace Unifier.Updating

open State

variable {nested : Unifier} (hn : nested.Updating) {K : Constraint → Prop} {s t : State}

include hn

theorem by_any (K : Constraint → Prop) : nested.UpdatingBy K := fun _ _ _ _ hs h => hn hs h

theorem pairs {pairs : List (Term × Term)} (hs : s.WellFormed)
    (h : (nested.pairs pairs s).value = .reached t) : Updates K s t := (hn.by_any K).pairs hs h

theorem runWith {c : Constraint} (hs : s.WellFormed)
    (h : (c.runWith nested s).value = .reached t) : Updates K s t := (hn.by_any K).runWith hs h

theorem wake {cs : List Constraint} (hs : s.WellFormed)
    (h : (nested.wake cs s).value = .reached t) : Updates K s t := (hn.by_any K).wake hs h

theorem unifyWith : Updating (State.unifyWith nested) :=
  fun K _ _ _ _ hs h => (hn.by_any K).unifyWith hs h

end Unifier.Updating

namespace State

theorem exhausted_updating : Unifier.Updating fun _ _ _ => .pure .exhausted := by
  intro K s t d e _ h
  cases h

theorem unifyAt_updating (depth : Nat) : Unifier.Updating (unifyAt depth) := by
  induction depth with
  | zero => exact exhausted_updating.unifyWith
  | succ depth ih => exact ih.unifyWith

theorem unifyFully_updating : Unifier.Updating unifyFully := by
  intro K s t d e hs h
  exact unifyAt_updating _ hs h

/-- A unification is one level of unification whose checks use some unifier. -/
theorem unifyFully_level (s : State) (d e : Term) :
    ∃ nested : Unifier, nested.Updating ∧ s.unifyFully d e = s.unifyWith nested d e := by
  simp only [unifyFully]
  cases s.room [d, e] with
  | zero => exact ⟨fun _ _ _ => .pure .exhausted, exhausted_updating, rfl⟩
  | succ depth => exact ⟨unifyAt depth, unifyAt_updating depth, rfl⟩

end State

/-- What the unifier reaches without a fault makes the two terms equal. -/
def Unifier.Joining (unify : Unifier) : Prop :=
  ∀ ⦃s t d e⦄, s.WellFormed → (unify s d e).value = .reached t → t.isFaulted = false →
    (t.resolve d).same (t.resolve e) = true

namespace State

theorem Extends.live {s t : State} (h : s.Extends t) (ht : t.isFaulted = false) :
    s.isFaulted = false := by
  cases hs : s.isFaulted with
  | false => rfl
  | true =>
    rw [h.faulted hs] at ht
    cases ht

/-- Equal ends are what a level of unification leaves behind. -/
theorem unifyWith_joining {nested : Unifier} (hn : nested.Updating) :
    Unifier.Joining (unifyWith nested) := by
  intro s t d e hs h ht
  have hext : s.Extends t := (hn.unifyWith (K := fun _ => False) hs h).extends hs
  rw [← hext.resolves d, ← hext.resolves e]
  have hcase := unifyWith_cases nested (hext.live ht) d e
  generalize State.unifyWith nested s d e = o at h hcase
  cases hcase with
  | equal hsame =>
    cases h
    rw [hs.acyclic.resolve_resolve, hs.acyclic.resolve_resolve]
    exact hsame
  | clash _ => cases h
  | @point x y hpq hne hk =>
    cases h
    have hx := hpq.free hs.acyclic
    have hy := hpq.swap.free hs.acyclic
    refine hpq.same (f := fun u => (s.pointAt x y).resolve u) (Term.same_of_eq ?_)
    simp only [resolve_pointAt hs.acyclic hx hy hne, resolve_free hx, resolve_free hy,
      Term.replace_self, Term.replace_ne fun h => hne (Term.var.inj h).symm]
  | @assign x a hpq ha =>
    have hx := hpq.free hs.acyclic
    have hb : Update (fun _ => False) s (s.bind x (.lit a)) := .assign hx ha
    have hbt : (s.bind x (.lit a)).Extends t :=
      (hn.wake (K := fun _ => False) (hb.wellFormed hs) h).extends (hb.wellFormed hs)
    refine hpq.same (f := fun u => t.resolve u) (Term.same_of_eq ?_)
    rw [hbt.resolve_lit (a := a), State.resolve_lit]
    rw [resolve_assign hs.acyclic hx, resolve_free hx, Term.replace_self]

theorem unifyAt_joining (depth : Nat) : Unifier.Joining (unifyAt depth) := by
  cases depth with
  | zero => exact unifyWith_joining exhausted_updating
  | succ depth => exact unifyWith_joining (unifyAt_updating depth)

theorem unify_eq_some {s t : State} {d e : Term} :
    (s.unify d e).value = some t ↔ (s.unifyFully d e).value = .reached t := Outcome.state?_eq_some

theorem check_eq_some {s t : State} {c : Constraint} :
    (s.check c).value = some t ↔ (c.runWith unifyFully s).value = .reached t :=
  Outcome.state?_eq_some

theorem unifyFully_joining : Unifier.Joining unifyFully := by
  intro s t d e hs h ht
  exact unifyAt_joining _ hs h ht

end State

end Goalbase

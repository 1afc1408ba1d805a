import Goalbase.State.Unify
import Goalbase.Proofs.Chains

/-!
# Goalbase.Proofs.Updates

What can happen to a state, one change at a time.

Every operation on states is a run of `Update`s: an unbound variable is given a literal of its kind
or pointed at another unbound variable of a narrower kind, a fault is set, or a constraint is
registered. Invariants are proved of one update and hold of every run:

* `Updates.wellFormed`: bindings stay acyclic and fit the declared kinds,
* `Updates.extends`: what terms resolve to is only ever refined, and a fault stays,
* `Updates.pending`: only registered constraints are ever pending.
-/

namespace Goalbase

/-- A literal the kind admits, or a variable of a kind it covers. -/
def Kind.Fits (k : Kind) : Term → Prop
  | .lit a => k.admits a = true
  | .var y => k.Covers y.kind

theorem Kind.fits_self (x : Var) : x.kind.Fits (.var x) := x.kind.covers_refl

theorem Kind.Fits.trans {k : Kind} {y : Var} {t : Term} (h : k.Fits (.var y))
    (h' : y.kind.Fits t) : k.Fits t := by
  cases t with
  | lit a => exact h a h'
  | var z => exact Kind.covers_trans h h'

namespace State

variable {s t u : State} {x y z : Var} {c : Constraint} {K : Constraint → Prop}

/-! ## The fields of a changed state -/

@[simp] theorem bindings_keep (s : State) (x : Var) (cs : List Constraint) :
    (s.keep x cs).bindings = s.bindings := by
  simp only [keep]
  split <;> rfl

@[simp] theorem fault_keep (s : State) (x : Var) (cs : List Constraint) :
    (s.keep x cs).fault = s.fault := by
  simp only [keep]
  split <;> rfl

@[simp] theorem bindings_addConstraint (s : State) (x : Var) (c : Constraint) :
    (s.addConstraint x c).bindings = s.bindings := by
  simp only [addConstraint]
  split
  · rfl
  · exact bindings_keep s _ _

@[simp] theorem fault_addConstraint (s : State) (x : Var) (c : Constraint) :
    (s.addConstraint x c).fault = s.fault := by
  simp only [addConstraint]
  split
  · rfl
  · exact fault_keep s _ _

theorem bindings_pointAt (s : State) (x y : Var) :
    (s.pointAt x y).bindings = (s.bind x (.var y)).bindings := bindings_keep _ _ _

theorem fault_pointAt (s : State) (x y : Var) : (s.pointAt x y).fault = s.fault :=
  fault_keep _ _ _

@[simp] theorem constraintsOf_bind (s : State) (x : Var) (t : Term) (y : Var) :
    (s.bind x t).constraintsOf y = s.constraintsOf y := rfl

theorem constraintsOf_keep (s : State) (x : Var) (cs : List Constraint) (y : Var) :
    (s.keep x cs).constraintsOf y
      = if y = x then s.constraintsOf x ++ cs else s.constraintsOf y := by
  simp only [keep]
  split
  · rename_i hcs
    rw [List.isEmpty_iff.1 hcs, List.append_nil]
    split
    · rename_i hy
      rw [hy]
    · rfl
  · simp only [constraintsOf, Table.get?_insert]
    split <;> rfl

@[simp] theorem resolve_addConstraint (s : State) (x : Var) (c : Constraint) (t : Term) :
    (s.addConstraint x c).resolve t = s.resolve t :=
  resolve_congr (bindings_addConstraint s x c) t

@[simp] theorem resolve_withFault (s : State) (reason : Fault) (t : Term) :
    (s.withFault reason).resolve t = s.resolve t :=
  resolve_congr (s := s) (t := s.withFault reason) rfl t

theorem resolve_pointAt (hs : s.Acyclic) (hx : s.bindings.get? x = none)
    (hy : s.bindings.get? y = none) (hne : x ≠ y) (t : Term) :
    (s.pointAt x y).resolve t = (s.resolve t).replace x (.var y) := by
  rw [resolve_congr (bindings_pointAt s x y)]
  exact resolve_bind hs hx (resolve_free hy) (fun h => hne (Term.var.inj h).symm) t

theorem resolve_assign (hs : s.Acyclic) (hx : s.bindings.get? x = none) (a : Literal) (t : Term) :
    (s.bind x (.lit a)).resolve t = (s.resolve t).replace x (.lit a) :=
  resolve_bind hs hx (resolve_lit s a) (fun h => by cases h) t

/-! ## Well-formed states -/

/-- Bindings lead to an end and fit the kinds of their variables. -/
structure WellFormed (s : State) : Prop where
  acyclic : s.Acyclic
  typed : ∀ {x t}, s.bindings.get? x = some t → x.kind.Fits t

theorem wellFormed_empty : empty.WellFormed := ⟨acyclic_empty, fun h => by cases h⟩

/-- Whatever kind fits a term fits the end of its chain. -/
theorem WellFormed.fits_end (hs : s.WellFormed) {xs : List Var} {t e : Term}
    (h : s.Chain xs t e) {k : Kind} (hk : k.Fits t) : k.Fits e := by
  induction h with
  | lit a => exact hk
  | free _ => exact hk
  | follow hx _ ih => exact ih (hk.trans (hs.typed hx))

theorem WellFormed.fits_resolve (hs : s.WellFormed) (x : Var) :
    x.kind.Fits (s.resolve (.var x)) := by
  obtain ⟨xs, h⟩ := hs.acyclic.chain_resolve (.var x)
  exact hs.fits_end h (Kind.fits_self x)

theorem WellFormed.congr (hs : s.WellFormed) (h : t.bindings = s.bindings) : t.WellFormed :=
  ⟨acyclic_congr h hs.acyclic, fun hx => hs.typed (by rw [← h]; exact hx)⟩

theorem WellFormed.bind (hs : s.WellFormed) (hx : s.bindings.get? x = none) {e : Term}
    (he : s.resolve e = e) (hne : e ≠ .var x) (hk : x.kind.Fits e) :
    (s.bind x e).WellFormed := by
  refine ⟨acyclic_bind hs.acyclic hx he hne, fun {y t} hy => ?_⟩
  rw [get?_bind] at hy
  split at hy
  · rename_i hyx
    cases hy
    rw [hyx]
    exact hk
  · exact hs.typed hy

/-! ## Updates -/

/-- One change of a state; constraints that are registered satisfy `K`. -/
inductive Update (K : Constraint → Prop) : State → State → Prop where
  | assign {s : State} {x : Var} {a : Literal} (hx : s.bindings.get? x = none)
      (ha : x.kind.admits a = true) : Update K s (s.bind x (.lit a))
  | point {s : State} {x y : Var} (hx : s.bindings.get? x = none)
      (hy : s.bindings.get? y = none) (hne : x ≠ y) (hk : x.kind.Covers y.kind) :
      Update K s (s.pointAt x y)
  | fault (s : State) (reason : Fault) : Update K s (s.withFault reason)
  | register (s : State) (x : Var) {c : Constraint} (hc : K c) :
      Update K s (s.addConstraint x c)

/-- A run of changes. -/
inductive Updates (K : Constraint → Prop) : State → State → Prop where
  | refl (s : State) : Updates K s s
  | step {s t u : State} (h : Update K s t) (rest : Updates K t u) : Updates K s u

theorem Updates.single (h : Update K s t) : Updates K s t := .step h (.refl t)

theorem Updates.trans (h : Updates K s t) (h' : Updates K t u) : Updates K s u := by
  induction h with
  | refl s => exact h'
  | step h _ ih => exact .step h (ih h')

theorem Update.wellFormed (h : Update K s t) (hs : s.WellFormed) : t.WellFormed := by
  cases h with
  | assign hx ha => exact hs.bind hx (resolve_lit s _) (fun h => by cases h) ha
  | point hx hy hne hk =>
    exact (hs.bind hx (resolve_free hy) (fun h => hne (Term.var.inj h).symm) hk).congr
      (bindings_pointAt s _ _)
  | fault reason => exact hs.congr rfl
  | register x hc => exact hs.congr (bindings_addConstraint s x _)

theorem Updates.wellFormed (h : Updates K s t) (hs : s.WellFormed) : t.WellFormed := by
  induction h with
  | refl s => exact hs
  | step h _ ih => exact ih (h.wellFormed hs)

/-! ## What an update leaves as it was -/

/-- The later state refines what terms resolve to and keeps a fault. -/
structure Extends (s t : State) : Prop where
  resolves : ∀ u, t.resolve (s.resolve u) = t.resolve u
  faulted : s.isFaulted = true → t.isFaulted = true

theorem Extends.trans (h : s.Extends t) (h' : t.Extends u) : s.Extends u :=
  ⟨fun e => by rw [← h'.resolves (s.resolve e), h.resolves, h'.resolves],
    fun hs => h'.faulted (h.faulted hs)⟩

theorem Extends.resolve_lit (h : s.Extends t) {e : Term} {a : Literal} (he : s.resolve e = .lit a) :
    t.resolve e = .lit a := by
  rw [← h.resolves, he, State.resolve_lit]

theorem Extends.same (h : s.Extends t) {d e : Term}
    (he : (s.resolve d).same (s.resolve e) = true) : (t.resolve d).same (t.resolve e) = true := by
  rw [← h.resolves d, ← h.resolves e]
  cases hd : s.resolve d with
  | lit a =>
    rw [hd] at he
    obtain ⟨b, hb, hba⟩ := Term.exists_lit_of_same (Term.same_symm he)
    rw [hb, State.resolve_lit, State.resolve_lit]
    exact Literal.same_symm hba
  | var x =>
    rw [hd] at he
    rw [Term.eq_of_same_var (Term.same_symm he)]
    exact Term.same_refl _

theorem valueOf?_eq_some {a : Literal} : s.valueOf? x = some a ↔ s.resolve (.var x) = .lit a := by
  simp only [valueOf?]
  cases s.resolve (.var x) with
  | lit b =>
    constructor
    · intro h
      exact congrArg Term.lit (Option.some.inj h)
    · intro h
      exact congrArg some (Term.lit.inj h)
  | var y =>
    constructor
    · intro h
      cases h
    · intro h
      cases h

theorem hasValue_iff : s.hasValue x = true ↔ ∃ a, s.resolve (.var x) = .lit a := by
  simp only [hasValue, Option.isSome_iff_exists, valueOf?_eq_some]

theorem hasValue_eq_false : s.hasValue x = false ↔ ∃ y, s.resolve (.var x) = .var y := by
  simp only [hasValue, valueOf?]
  cases s.resolve (.var x) with
  | lit a =>
    constructor
    · intro h
      cases h
    · rintro ⟨y, h⟩
      cases h
  | var y => exact ⟨fun _ => ⟨y, rfl⟩, fun _ => rfl⟩

theorem Extends.hasValue (h : s.Extends t) (hx : s.hasValue x = true) : t.hasValue x = true := by
  obtain ⟨a, ha⟩ := hasValue_iff.1 hx
  exact hasValue_iff.2 ⟨a, h.resolve_lit ha⟩

theorem isReady_iff : s.isReady c = true ↔ ∀ x ∈ c.vars, s.hasValue x = true := List.all_eq_true

/-- States that resolve variables alike have the same constraints ready. -/
theorem isReady_congr (h : ∀ x, t.resolve (.var x) = s.resolve (.var x)) (c : Constraint) :
    t.isReady c = s.isReady c := by
  have hvalue : t.hasValue = s.hasValue := funext fun x => by simp only [hasValue, valueOf?, h x]
  simp only [isReady, hvalue]

theorem Extends.isReady (h : s.Extends t) (hc : s.isReady c = true) : t.isReady c = true :=
  isReady_iff.2 fun x hx => h.hasValue (isReady_iff.1 hc x hx)

/-- A binding of an unbound variable refines what terms resolve to. -/
theorem Acyclic.resolve_refined (hs : s.Acyclic) {e : Term}
    (ht : ∀ u, t.resolve u = (s.resolve u).replace x e) (u : Term) :
    t.resolve (s.resolve u) = t.resolve u := by
  rw [ht, ht, hs.resolve_resolve]

theorem Update.extends (h : Update K s t) (hs : s.Acyclic) : s.Extends t := by
  cases h with
  | assign hx _ => exact ⟨hs.resolve_refined (resolve_assign hs hx _), fun h => h⟩
  | point hx hy hne _ =>
    refine ⟨hs.resolve_refined (resolve_pointAt hs hx hy hne), fun h => ?_⟩
    rw [isFaulted, fault_pointAt]
    exact h
  | fault reason =>
    exact ⟨fun u => by simp only [resolve_withFault, hs.resolve_resolve], fun _ => rfl⟩
  | register x hc =>
    refine ⟨fun u => by simp only [resolve_addConstraint, hs.resolve_resolve], fun h => ?_⟩
    rw [isFaulted, fault_addConstraint]
    exact h

theorem Updates.extends (h : Updates K s t) (hs : s.WellFormed) : s.Extends t := by
  induction h with
  | refl s => exact ⟨fun u => hs.acyclic.resolve_resolve u, fun h => h⟩
  | step h _ ih => exact (h.extends hs.acyclic).trans (ih (h.wellFormed hs))

/-! ## Pending constraints -/

/-- Every pending constraint satisfies `K`. -/
def Pending (K : Constraint → Prop) (s : State) : Prop := ∀ x, ∀ c ∈ s.constraintsOf x, K c

theorem pending_empty (K : Constraint → Prop) : empty.Pending K := fun _ _ h => by cases h

theorem Pending.keep (hs : s.Pending K) (x : Var) {cs : List Constraint} (hcs : ∀ c ∈ cs, K c) :
    (s.keep x cs).Pending K := by
  intro y c hc
  rw [constraintsOf_keep] at hc
  split at hc
  · cases List.mem_append.1 hc with
    | inl hc => exact hs x c hc
    | inr hc => exact hcs c hc
  · exact hs y c hc

theorem Update.pending (h : Update K s t) (hs : s.Pending K) : t.Pending K := by
  cases h with
  | assign _ _ => exact hs
  | @point x y _ _ _ _ =>
    exact Pending.keep (s := s.bind x (.var y)) hs y fun c hc => hs x c (List.mem_filter.1 hc).1
  | fault reason => exact hs
  | register x hc =>
    simp only [addConstraint]
    split
    · exact hs
    · refine hs.keep _ fun d hd => ?_
      rw [List.mem_singleton.1 hd]
      exact hc

theorem Updates.pending (h : Updates K s t) (hs : s.Pending K) : t.Pending K := by
  induction h with
  | refl s => exact hs
  | step h _ ih => exact ih (h.pending hs)

end State

end Goalbase

import Goalbase.Proofs.Equating
import Goalbase.Proofs.Nesting

/-!
# Goalbase.Proofs.Respecting

Operations respect equality of states.

Equal states may bind a variable to literals that are equal without being identical, and keep
constraints that are other objects with the same identity. `Twins K s t` is equality where
constraints of one identity are known to wait for the same variables and to check the same. Twins
resolve every term to equal terms (`Twins.resolve`), so they have the same constraints ready and
keep them in the same places, and impartial checks judge them alike. One level of unification
therefore leads from twins to twins (`unifyWith_respects`), and by induction on the depth so does
unification (`unifyFully_respects`). Registering a constraint and unifying two terms give equal
states for equal states (`equality_respected`).
-/

namespace Goalbase

namespace Constraint

/-- Constraints of one identity, both of them among the known ones. -/
structure Twin (K : Constraint → Prop) (c d : Constraint) : Prop where
  left : K c
  right : K d
  same : c.same d = true

variable {K : Constraint → Prop} {c d : Constraint} {cs ds : List Constraint}

theorem Twin.vars (hK : Consistent K) (h : Twin K c d) : c.vars = d.vars :=
  (hK c d h.left h.right h.same).1

theorem Twin.check (hK : Consistent K) (h : Twin K c d) : c.check = d.check :=
  (hK c d h.left h.right h.same).2

theorem twin_self (h : K c) : Twin K c c := ⟨h, h, same_refl c⟩

theorem forall₂_twin (hcs : ∀ c ∈ cs, K c) (hds : ∀ d ∈ ds, K d)
    (h : cs.map handle = ds.map handle) : List.Forall₂ (Twin K) cs ds := by
  induction cs generalizing ds with
  | nil =>
    rw [List.map_eq_nil_iff.1 h.symm]
    exact .nil
  | cons c cs ih =>
    cases ds with
    | nil => cases h
    | cons d ds =>
      rw [List.map_cons, List.map_cons, List.cons.injEq] at h
      rw [List.forall_mem_cons] at hcs hds
      exact .cons ⟨hcs.1, hds.1, same_iff.2 h.1⟩ (ih hcs.2 hds.2 h.2)

theorem handles_of_twins (h : List.Forall₂ (Twin K) cs ds) :
    cs.map handle = ds.map handle := by
  induction h with
  | nil => rfl
  | cons h _ ih => rw [List.map_cons, List.map_cons, same_iff.1 h.same, ih]

theorem any_same_of_twins (h : Twin K c d) (hcs : List.Forall₂ (Twin K) cs ds) :
    cs.any c.same = ds.any d.same := by
  induction hcs with
  | nil => rfl
  | cons h' _ ih =>
    rw [List.any_cons, List.any_cons, ih]
    simp only [Constraint.same, same_iff.1 h.same, same_iff.1 h'.same]

end Constraint

namespace State

open Constraint

/-- States that agree, where the constraints on both sides are known ones. -/
structure Twins (K : Constraint → Prop) (s t : State) : Prop where
  wellFormed : s.WellFormed
  bindings : ∀ x,
    Option.Rel (fun d e => d.same e = true) (s.bindings.get? x) (t.bindings.get? x)
  fault : Option.Rel (fun a b => a.same b = true) s.fault t.fault
  pending : ∀ x, List.Forall₂ (Twin K) (s.constraintsOf x) (t.constraintsOf x)

variable {K : Constraint → Prop} {s t : State} {x y : Var} {c d : Constraint}

theorem Agrees.twins (h : s.Agrees t) (hs : s.WellFormed) (hsK : s.Pending K)
    (htK : t.Pending K) : s.Twins K t :=
  ⟨hs, h.bindings, h.fault, fun x => forall₂_twin (hsK x) (htK x) (h.handles x)⟩

namespace Twins

theorem agrees (h : s.Twins K t) : s.Agrees t :=
  ⟨h.bindings, h.fault, fun x => handles_of_twins (h.pending x)⟩

/-! ## What twins have in common -/

/-- The chains of equal terms go through the same variables and have equal ends. -/
theorem chain (h : s.Twins K t) {xs : List Var} {a b e : Term} (hc : s.Chain xs a e)
    (hab : a.same b = true) : ∃ e', t.Chain xs b e' ∧ e.same e' = true := by
  induction hc generalizing b with
  | lit v =>
    obtain ⟨v', rfl, -⟩ := Term.exists_lit_of_same (Term.same_symm hab)
    exact ⟨_, .lit v', hab⟩
  | @free x hx =>
    rw [Term.eq_of_same_var (Term.same_symm hab)]
    have hx' := h.bindings x
    generalize ht : t.bindings.get? x = o at hx'
    rw [hx] at hx'
    cases hx' with | none => exact ⟨_, .free ht, Term.same_refl _⟩
  | @follow x u e xs hx _ ih =>
    rw [Term.eq_of_same_var (Term.same_symm hab)]
    have hx' := h.bindings x
    generalize ht : t.bindings.get? x = o at hx'
    rw [hx] at hx'
    cases hx' with
    | some huu =>
      obtain ⟨e', he', hee⟩ := ih huu
      exact ⟨e', .follow ht he', hee⟩

variable (h : s.Twins K t)

include h

theorem resolve (a : Term) : (s.resolve a).same (t.resolve a) = true := by
  obtain ⟨xs, hc⟩ := h.wellFormed.acyclic.chain_resolve a
  obtain ⟨e, he, hse⟩ := h.chain hc (Term.same_refl a)
  rw [he.resolve_eq]
  exact hse

theorem isFaulted : s.isFaulted = t.isFaulted := by
  have hf := h.fault
  simp only [State.isFaulted]
  generalize s.fault = a at hf ⊢
  generalize t.fault = b at hf ⊢
  cases hf with
  | some _ => rfl
  | none => rfl

theorem hasValue (x : Var) : s.hasValue x = t.hasValue x := by
  simp only [State.hasValue, valueOf?]
  obtain ⟨a, b, ha, hb, -⟩ | ⟨y, hy, hy'⟩ := Term.same_cases (h.resolve (.var x))
  · rw [ha, hb]
    rfl
  · rw [hy, hy']

theorem isReady (hK : Consistent K) (hcd : Twin K c d) : s.isReady c = t.isReady d := by
  simp only [State.isReady, hcd.vars hK, funext h.hasValue]

theorem keeper (x : Var) : s.keeper x = t.keeper x := by
  simp only [State.keeper]
  obtain ⟨a, b, ha, hb, -⟩ | ⟨y, hy, hy'⟩ := Term.same_cases (h.resolve (.var x))
  · rw [ha, hb]
  · rw [hy, hy']

theorem keeps (hcd : Twin K c d) (x : Var) : s.keeps x c = t.keeps x d :=
  any_same_of_twins hcd (h.pending x)

theorem woken (hK : Consistent K) (x : Var) :
    List.Forall₂ (Twin K) (s.woken x) (t.woken x) :=
  List.rel_filter (fun _ _ hcd => Bool.eq_iff_iff.1 (h.isReady hK hcd)) (h.pending x)

/-! ## Changes of twins -/

theorem bind (hx : s.bindings.get? x = none) {a b : Term} (hab : a.same b = true)
    (ha : s.resolve a = a) (hne : a ≠ .var x) (hk : x.kind.Fits a) :
    (s.bind x a).Twins K (t.bind x b) := by
  refine ⟨h.wellFormed.bind hx ha hne hk, fun y => ?_, h.fault, h.pending⟩
  rw [get?_bind, get?_bind]
  split
  · exact .some hab
  · exact h.bindings y

theorem withFault {a b : Fault} (hab : a.same b = true) :
    (s.withFault a).Twins K (t.withFault b) :=
  ⟨h.wellFormed.congr rfl, h.bindings, .some hab, h.pending⟩

theorem keep {cs ds : List Constraint} (hcs : List.Forall₂ (Twin K) cs ds) (x : Var) :
    (s.keep x cs).Twins K (t.keep x ds) := by
  refine ⟨h.wellFormed.congr (bindings_keep s x cs), ?_, ?_, fun y => ?_⟩
  · rw [bindings_keep, bindings_keep]
    exact h.bindings
  · rw [fault_keep, fault_keep]
    exact h.fault
  · rw [constraintsOf_keep, constraintsOf_keep]
    split
    · exact List.rel_append (h.pending x) hcs
    · exact h.pending y

theorem addConstraint (hcd : Twin K c d) (x : Var) :
    (s.addConstraint x c).Twins K (t.addConstraint x d) := by
  simp only [State.addConstraint, h.keeper, h.keeps hcd]
  split
  · exact h
  · exact h.keep (.cons hcd .nil) _

theorem pointAt (hx : s.bindings.get? x = none) (hy : s.bindings.get? y = none) (hne : x ≠ y)
    (hk : x.kind.Covers y.kind) : (s.pointAt x y).Twins K (t.pointAt x y) := by
  have hb := h.bind hx (Term.same_refl (.var y)) (resolve_free hy)
    (fun he => hne (Term.var.inj he).symm) hk
  have hcarried : List.Forall₂ (Twin K) ((s.constraintsOf x).filter fun c => !s.keeps y c)
      ((t.constraintsOf x).filter fun d => !t.keeps y d) :=
    List.rel_filter (R := Twin K)
      (fun _ _ hcd => Bool.eq_iff_iff.1 (congrArg not (h.keeps hcd y))) (h.pending x)
  exact hb.keep hcarried y

end Twins

/-! ## Equal states -/

theorem Reachable.twins (hs : s.Reachable K) (ht : t.Reachable K) (h : s.same t = true) :
    s.Twins K t :=
  ((same_iff hs.filled ht.filled).1 h).twins hs.wellFormed (hs.updates.pending (pending_empty K))
    (ht.updates.pending (pending_empty K))

theorem same_addConstraint (hs : s.Reachable K) (ht : t.Reachable K) (h : s.same t = true)
    (hc : K c) (x : Var) :
    (s.addConstraint x c).same (t.addConstraint x c) = true :=
  (same_iff (hs.register x hc).filled (ht.register x hc).filled).2
    ((hs.twins ht h).addConstraint (twin_self hc) x).agrees

end State

/-! ## Unification -/

open Constraint State

/-- Both outcomes are the same, with twins where states are reached. -/
inductive Outcome.Twins (K : Constraint → Prop) : Outcome → Outcome → Prop where
  | reached {s t : State} (h : s.Twins K t) : Twins K (.reached s) (.reached t)
  | rejected : Twins K .rejected .rejected
  | exhausted : Twins K .exhausted .exhausted

/-- The unifier leads from twins to twins. -/
def Unifier.Respects (K : Constraint → Prop) (unify : Unifier) : Prop :=
  ∀ ⦃s t : State⦄, s.Twins K t → ∀ a b, Outcome.Twins K (unify s a b).value (unify t a b).value

section Unifying

variable {K : Constraint → Prop}

theorem Outcome.Twins.next {o o' : Outcome} {f f' : State → Outcome} : o.Twins K o' →
    (∀ u v, u.Twins K v → (f u).Twins K (f' v)) →
    Outcome.Twins K
      (match o with
        | .reached u => f u
        | o => o)
      (match o' with
        | .reached u => f' u
        | o => o) := by
  intro h hf
  cases h with
  | reached h => exact hf _ _ h
  | rejected => exact .rejected
  | exhausted => exact .exhausted

theorem Outcome.Twins.state? {o o' : Outcome} (h : o.Twins K o') :
    Option.Rel (State.Twins K) o.state? o'.state? := by
  cases h with
  | reached h => exact .some h
  | rejected => exact .none
  | exhausted => exact .none

variable {nested : Unifier} (hK : Consistent K) (hjudge : ∀ c, K c → c.check.Impartial)
  (hn : nested.Respects K) {s t : State} {c d : Constraint} {cs ds : List Constraint}

include hn in
theorem pairs_respects (h : s.Twins K t) (pairs : List (Term × Term)) :
    (nested.pairs pairs s).value.Twins K (nested.pairs pairs t).value := by
  induction pairs generalizing s t with
  | nil => exact .reached h
  | cons p rest ih =>
    obtain ⟨a, b⟩ := p
    rw [value_pairs_cons, value_pairs_cons]
    exact (hn h a b).next fun u v huv => ih huv

include hK hjudge hn

theorem runWith_respects (h : s.Twins K t) (hcd : Twin K c d) :
    (c.runWith nested s).value.Twins K (d.runWith nested t).value := by
  have himp := hjudge c hcd.left
  cases hc : c.check with
  | test terms judge =>
    rw [hc] at himp
    rw [value_runWith_test hc, value_runWith_test ((hcd.check hK).symm.trans hc)]
    cases himp with
    | test hsame =>
      have hv := hsame s.resolve t.resolve h.resolve
      generalize judge (terms.map s.resolve) = v at hv ⊢
      generalize judge (terms.map t.resolve) = w at hv ⊢
      cases hv with
      | accept => exact .reached h
      | reject => exact .rejected
      | fault hab => exact .reached (h.withFault hab)
  | unify pairs =>
    rw [value_runWith_unify hc, value_runWith_unify ((hcd.check hK).symm.trans hc)]
    exact pairs_respects hn h pairs

theorem wake_respects (h : s.Twins K t) (hcs : List.Forall₂ (Twin K) cs ds) :
    (nested.wake cs s).value.Twins K (nested.wake ds t).value := by
  induction hcs generalizing s t with
  | nil => exact .reached h
  | cons hcd _ ih =>
    cases hf : s.isFaulted with
    | true =>
      rw [wake_faulted hf, wake_faulted (h.isFaulted ▸ hf)]
      exact .reached h
    | false =>
      rw [value_wake_cons hf, value_wake_cons (h.isFaulted ▸ hf)]
      exact (runWith_respects hK hjudge hn h hcd).next fun u v huv => ih huv

theorem assign_respects (h : s.Twins K t) {x : Var} (hx : s.bindings.get? x = none)
    {a b : Literal} (hab : a.same b = true) :
    (nested.assign s x a).value.Twins K (nested.assign t x b).value := by
  have hadmits : x.kind.admits a = x.kind.admits b := Kind.admits_of_same hab x.kind
  cases ha : x.kind.admits a with
  | false =>
    rw [assign_refused ha, assign_refused (hadmits ▸ ha)]
    exact .rejected
  | true =>
    have hb : (s.bind x (.lit a)).Twins K (t.bind x (.lit b)) :=
      h.bind hx hab (resolve_lit s a) (fun he => by cases he) ha
    rw [assign_admitted ha, assign_admitted (hadmits ▸ ha)]
    exact wake_respects hK hjudge hn hb (hb.woken hK x)

theorem unifyWith_respects : Unifier.Respects K (State.unifyWith nested) := by
  intro s t h a b
  cases hf : s.isFaulted with
  | true =>
    rw [unifyWith_faulted hf, unifyWith_faulted (h.isFaulted ▸ hf)]
    exact .reached h
  | false =>
    simp only [State.unifyWith, hf, h.isFaulted ▸ hf, Bool.false_eq_true, if_false]
    obtain ⟨v, v', hv, hv', hvv⟩ | ⟨x, hx, hx'⟩ := Term.same_cases (h.resolve a)
    · obtain ⟨w, w', hw, hw', hww⟩ | ⟨y, hy, hy'⟩ := Term.same_cases (h.resolve b)
      · have hsame : v.same w = v'.same w' := by
          simpa only [hv, hv', hw, hw', Term.same] using
            Term.same_of_same (h.resolve a) (h.resolve b)
        simp only [hv, hv', hw, hw', hsame]
        split
        · exact .reached h
        · exact .rejected
      · simp only [hv, hv', hy, hy']
        exact assign_respects hK hjudge hn h (h.wellFormed.acyclic.free_of_resolve hy) hvv
    · have hfree := h.wellFormed.acyclic.free_of_resolve hx
      obtain ⟨w, w', hw, hw', hww⟩ | ⟨y, hy, hy'⟩ := Term.same_cases (h.resolve b)
      · simp only [hx, hx', hw, hw']
        exact assign_respects hK hjudge hn h hfree hww
      · have hfree' := h.wellFormed.acyclic.free_of_resolve hy
        simp only [hx, hx', hy, hy']
        by_cases hxy : x = y
        · simp only [if_pos hxy]
          exact .reached h
        · simp only [if_neg hxy]
          cases hk : x.kind.meet? y.kind with
          | none => exact .rejected
          | some k =>
            obtain ⟨hxk, hyk⟩ := Kind.covers_of_meet? hk
            by_cases hyk' : y.kind = k
            · simp only [if_pos hyk']
              exact .reached (h.pointAt hfree hfree' hxy (hyk' ▸ hxk))
            · simp only [if_neg hyk']
              have hxk' := (Kind.meet?_eq_left_or_right hk).resolve_right fun h' => hyk' h'.symm
              exact .reached (h.pointAt hfree' hfree (Ne.symm hxy) (hxk' ▸ hyk))

end Unifying

namespace State

section Depths

variable {K : Constraint → Prop} {s t : State} (hK : Consistent K)
  (hjudge : ∀ c, K c → c.check.Impartial)

include hK hjudge

theorem unifyAt_respects (depth : Nat) : Unifier.Respects K (unifyAt depth) := by
  induction depth with
  | zero => exact unifyWith_respects hK hjudge fun _ _ _ _ _ => .exhausted
  | succ depth ih => exact unifyWith_respects hK hjudge ih

/-- Twins may have room for different depths, but the greater of them is enough for both. -/
theorem unifyFully_respects (h : s.Twins K t) (ht : t.WellFormed) (a b : Term) :
    Outcome.Twins K (s.unifyFully a b).value (t.unifyFully a b).value := by
  have hs := unifyAt_agrees (Nat.le_max_left (s.room [a, b]) (t.room [a, b])) h.wellFormed
    (unifyFully_ne_exhausted h.wellFormed a b)
  have ht := unifyAt_agrees (Nat.le_max_right (s.room [a, b]) (t.room [a, b])) ht
    (unifyFully_ne_exhausted ht a b)
  rw [unifyFully, unifyFully, ← hs, ← ht]
  exact unifyAt_respects hK hjudge _ h a b

theorem same_unify (hs : s.Reachable K) (ht : t.Reachable K) (h : s.same t = true) (a b : Term) :
    Option.Rel (fun u v => u.same v = true) (s.unify a b).value (t.unify a b).value := by
  have hst : Option.Rel (State.Twins K) (s.unify a b).value (t.unify a b).value :=
    (unifyFully_respects hK hjudge (hs.twins ht h) ht.wellFormed a b).state?
  generalize hu : (s.unify a b).value = o at hst ⊢
  generalize hv : (t.unify a b).value = o' at hst ⊢
  cases hst with
  | some huv => exact .some ((same_iff (hs.unify hu).filled (ht.unify hv).filled).2 huv.agrees)
  | none => exact .none

end Depths

/-- In states that operations lead to no variable is mapped to an empty list of constraints, so
equality of states is an equivalence although it looks up one side only. Operations respect it:
equal states stay equal when a constraint is registered, and unifying two terms fails on both or
gives equal states. -/
theorem equality_respected {K : Constraint → Prop} (hK : Consistent K)
    (hjudge : ∀ c, K c → c.check.Impartial) :
    (∀ s : State, s.Reachable K → ∀ x, s.pending.get? x ≠ some [])
      ∧ (Equivalence fun s t : {s : State // s.Reachable K} => s.1.same t.1 = true)
      ∧ ∀ s t : State, s.Reachable K → t.Reachable K → s.same t = true →
        (∀ x c, K c → (s.addConstraint x c).same (t.addConstraint x c) = true)
        ∧ ∀ a b, (s.unifyFully a b).value ≠ .exhausted ∧ (t.unifyFully a b).value ≠ .exhausted
          ∧ Option.Rel (fun u v => u.same v = true) (s.unify a b).value (t.unify a b).value := by
  refine ⟨fun s hs => hs.filled, same_equivalence K, fun s t hs ht h =>
    ⟨fun x c hc => ?_, fun a b => ⟨?_, ?_, ?_⟩⟩⟩
  · exact same_addConstraint hs ht h hc x
  · exact unifyFully_ne_exhausted hs.wellFormed a b
  · exact unifyFully_ne_exhausted ht.wellFormed a b
  · exact same_unify hK hjudge hs ht h a b

def signedZero (negative : Bool) : Literal := .number (.double (.zero negative))

def balanced : Constraint :=
  ⟨.built 0, [.any "x", .any "y"],
    .test [.var (.any "x"), .var (.any "y")] (Relations.compareJudge 0), []⟩

def follows : Constraint := ⟨.built 1, [.any "y"], .unify [(.var (.any "z"), .var (.any "x"))], []⟩

/-- A value of `y` wakes a comparison with the zero that `x` is, and then gives that zero to `z`. -/
def awaiting (negative : Bool) : State :=
  ((empty.addConstraint (.any "y") balanced).addConstraint (.any "y") follows).bind (.any "x")
    (.lit (signedZero negative))

def settled (negative : Bool) : State :=
  ((awaiting negative).bind (.any "y") (.lit (signedZero false))).bind (.any "z")
    (.lit (signedZero negative))

theorem reachable_awaiting (negative : Bool) :
    (awaiting negative).Reachable fun c => c = balanced ∨ c = follows :=
  .unify (a := .var (.any "x")) (b := .lit (signedZero negative))
    (.register (.register .empty (.any "y") (.inl rfl)) (.any "y") (.inr rfl)) rfl

/-- The zeros are equal but not identical, and so are the states that they lead to. -/
theorem equality_respected_zeros :
    signedZero false ≠ signedZero true ∧ (awaiting false).same (awaiting true) = true
      ∧ ((awaiting false).unify (.var (.any "y")) (.lit (signedZero false))).value
        = some (settled false)
      ∧ ((awaiting true).unify (.var (.any "y")) (.lit (signedZero false))).value
        = some (settled true)
      ∧ (settled false).same (settled true) = true := by
  have hK : Consistent fun c => c = balanced ∨ c = follows := by
    rintro c d (rfl | rfl) (rfl | rfl) h
    · exact ⟨rfl, rfl⟩
    · cases h
    · cases h
    · exact ⟨rfl, rfl⟩
  have hjudge : ∀ c, c = balanced ∨ c = follows → c.check.Impartial := by
    rintro c (rfl | rfl)
    · exact (Check.Basic.compare _ _ _).impartial
    · exact (Check.Basic.unify _).impartial
  have hsame : (awaiting false).same (awaiting true) = true := by decide
  have hu : ((awaiting false).unify (.var (.any "y")) (.lit (signedZero false))).value
      = some (settled false) := rfl
  have hv : ((awaiting true).unify (.var (.any "y")) (.lit (signedZero false))).value
      = some (settled true) := rfl
  obtain ⟨-, -, hrespect⟩ := equality_respected hK hjudge
  obtain ⟨-, hunify⟩ := hrespect _ _ (reachable_awaiting false) (reachable_awaiting true) hsame
  obtain ⟨-, -, hrel⟩ := hunify (.var (.any "y")) (.lit (signedZero false))
  refine ⟨fun h => ?_, hsame, hu, hv, ?_⟩
  · cases h
  · rw [hu, hv] at hrel
    cases hrel with | some h => exact h

end State

end Goalbase

import Goalbase.Proofs.Depth
import Goalbase.Proofs.Enforcement

/-!
# Goalbase.Proofs.Copies

Constraints that are shared, and the same ones copied.

A constraint is kept once on each variable, by its handle. When every occurrence of it has a handle
of its own, it is kept once for each of them. `State.Copied` relates a state with shared constraints
to one with copies: bindings and fault are the same, and the constraints of every variable are
repeated in their order, with further copies of those that came before. A further copy of a `Steady`
constraint is checked after the first one and changes nothing. So unification gives related
outcomes, at whatever depths it is done (`unifyAt_copied`), and so do `State.unify` and
`State.check` (`unify_copied`, `check_copied`).
-/

namespace Goalbase

namespace Constraint

/-- A test whose judgement depends only on the values of the variables the constraint waits for. -/
structure Steady (c : Constraint) : Prop where
  test : ∃ terms judge, c.check = .test terms judge
  decided : c.Decided

/-- The second constraint waits for the same variables and checks the same as the first one, which
its handle stands for. -/
structure Copy (K : Constraint → Prop) (κ : Handle → Handle) (c d : Constraint) : Prop where
  known : K c
  handle : κ d.handle = c.handle
  vars : d.vars = c.vars
  check : d.check = c.check

/-- Handles stand for the handles of constraints in `K`. Only a steady constraint has a handle for
which another one stands. -/
structure Sharing (K : Constraint → Prop) (κ : Handle → Handle) : Prop where
  consistent : Consistent K
  steady : ∀ {c h}, K c → κ h = c.handle → h ≠ c.handle → c.Steady

/-- The second list repeats the first one, with further copies of steady constraints that came
before or were seen. -/
inductive Copies (K : Constraint → Prop) (κ : Handle → Handle) :
    List Constraint → List Constraint → List Constraint → Prop where
  | nil (seen : List Constraint) : Copies K κ seen [] []
  | both {seen cs ds : List Constraint} {c d : Constraint} (h : Copy K κ c d)
      (rest : Copies K κ (c :: seen) cs ds) : Copies K κ seen (c :: cs) (d :: ds)
  | again {seen cs ds : List Constraint} {c d : Constraint} (hc : c ∈ seen) (hs : c.Steady)
      (h : Copy K κ c d) (rest : Copies K κ seen cs ds) : Copies K κ seen cs (d :: ds)

variable {K : Constraint → Prop} {κ : Handle → Handle} {c c' d d' : Constraint}
  {seen seen' cs cs' ds ds' : List Constraint}

theorem Steady.of_same (h : c.Steady) (hvars : c.vars = d.vars) (hcheck : c.check = d.check) :
    d.Steady := by
  obtain ⟨⟨terms, judge, ht⟩, hdec⟩ := h
  refine ⟨⟨terms, judge, hcheck ▸ ht⟩, ?_⟩
  simp only [Decided, ← hvars, ← hcheck]
  exact hdec

/-- Two handles for one constraint make it steady. -/
theorem Sharing.steady_of_ne (hκ : Sharing K κ) (h : Copy K κ c d) {n : Handle}
    (hn : κ n = c.handle) (hne : d.handle ≠ n) : c.Steady := by
  by_cases hd : d.handle = c.handle
  · exact hκ.steady h.known hn fun h' => hne (hd.trans h'.symm)
  · exact hκ.steady h.known h.handle hd

theorem Copy.same (h : Copy K κ c d) (h' : Copy K κ c' d') (hd : d.same d' = true) :
    c.same c' = true := by
  rw [same_iff] at hd ⊢
  rw [← h.handle, ← h'.handle, hd]

/-- A copy of a constraint is a copy of every known one with the same handle. -/
theorem Copy.of_same (hκ : Sharing K κ) (h : Copy K κ c d) (hc' : K c') (hs : c.same c' = true) :
    Copy K κ c' d := by
  obtain ⟨hvars, hcheck⟩ := hκ.consistent c c' h.known hc' hs
  exact ⟨hc', h.handle.trans (same_iff.1 hs), h.vars.trans hvars, h.check.trans hcheck⟩

namespace Copies

theorem mono (h : Copies K κ seen cs ds) (hseen : seen ⊆ seen') : Copies K κ seen' cs ds := by
  induction h generalizing seen' with
  | nil seen => exact .nil _
  | both h _ ih => exact .both h (ih (List.cons_subset_cons _ hseen))
  | again hc hs h _ ih => exact .again (hseen hc) hs h (ih hseen)

theorem append (h : Copies K κ seen cs ds) (h' : Copies K κ (cs ++ seen) cs' ds') :
    Copies K κ seen (cs ++ cs') (ds ++ ds') := by
  induction h with
  | nil seen => exact h'
  | both h _ ih =>
    refine .both h (ih (h'.mono fun e he => ?_))
    simp only [List.cons_append, List.mem_cons, List.mem_append] at he ⊢
    tauto
  | again hc hs h _ ih => exact .again hc hs h (ih h')

/-- Every constraint of the first list has a copy in the second. -/
theorem exists_copy (h : Copies K κ seen cs ds) (hc : c ∈ cs) : ∃ d ∈ ds, Copy K κ c d := by
  induction h with
  | nil seen => cases hc
  | both h _ ih =>
    cases List.mem_cons.1 hc with
    | inl e =>
      rw [e]
      exact ⟨_, List.mem_cons_self, h⟩
    | inr hc =>
      obtain ⟨d, hd, hcd⟩ := ih hc
      exact ⟨d, List.mem_cons_of_mem _ hd, hcd⟩
  | again _ _ _ _ ih =>
    obtain ⟨d, hd, hcd⟩ := ih hc
    exact ⟨d, List.mem_cons_of_mem _ hd, hcd⟩

/-- Everything in the second list is a copy of something in the first or seen before. -/
theorem exists_original (h : Copies K κ seen cs ds) (hd : d ∈ ds) :
    ∃ c, (c ∈ cs ∨ c ∈ seen) ∧ Copy K κ c d := by
  induction h with
  | nil seen => cases hd
  | both h _ ih =>
    cases List.mem_cons.1 hd with
    | inl e =>
      rw [e]
      exact ⟨_, .inl List.mem_cons_self, h⟩
    | inr hd =>
      obtain ⟨c, hc, hcd⟩ := ih hd
      refine ⟨c, ?_, hcd⟩
      simp only [List.mem_cons] at hc ⊢
      tauto
  | again hc _ h _ ih =>
    cases List.mem_cons.1 hd with
    | inl e =>
      rw [e]
      exact ⟨_, .inr hc, h⟩
    | inr hd => exact ih hd

/-- Copies among chosen constraints. What is chosen in the second list only is a copy of a steady
constraint that was seen. -/
theorem filter (h : Copies K κ seen cs ds) {p q : Constraint → Bool}
    (hp : ∀ {c d}, Copy K κ c d → p c = true → q d = true)
    (hq : ∀ {c d}, Copy K κ c d → p c = false → q d = true →
      ∃ c' ∈ seen', c'.Steady ∧ Copy K κ c' d)
    (hseen : ∀ c ∈ seen, p c = true → c ∈ seen') :
    Copies K κ seen' (cs.filter p) (ds.filter q) := by
  induction h generalizing seen' with
  | nil seen => exact .nil _
  | @both seen cs ds c d h _ ih =>
    cases hpc : p c with
    | true =>
      rw [List.filter_cons_of_pos hpc, List.filter_cons_of_pos (hp h hpc)]
      refine .both h (ih (fun h hn hy => ?_) fun e he hpe => ?_)
      · obtain ⟨c', hc', hs⟩ := hq h hn hy
        exact ⟨c', List.mem_cons_of_mem _ hc', hs⟩
      · cases List.mem_cons.1 he with
        | inl e => rw [e]; exact List.mem_cons_self
        | inr he => exact List.mem_cons_of_mem _ (hseen e he hpe)
    | false =>
      have hrest : Copies K κ seen' (cs.filter p) (ds.filter q) := by
        refine ih hq fun e he hpe => ?_
        cases List.mem_cons.1 he with
        | inl e' => rw [e', hpc] at hpe; cases hpe
        | inr he => exact hseen e he hpe
      rw [List.filter_cons_of_neg (by rw [hpc]; exact Bool.false_ne_true)]
      cases hqd : q d with
      | true =>
        obtain ⟨c', hc', hs, hcopy⟩ := hq h hpc hqd
        rw [List.filter_cons_of_pos hqd]
        exact .again hc' hs hcopy hrest
      | false =>
        rw [List.filter_cons_of_neg (by rw [hqd]; exact Bool.false_ne_true)]
        exact hrest
  | @again seen cs ds c d hc hs h _ ih =>
    have hrest := ih hq hseen
    cases hqd : q d with
    | true =>
      rw [List.filter_cons_of_pos hqd]
      cases hpc : p c with
      | true => exact .again (hseen c hc hpc) hs h hrest
      | false =>
        obtain ⟨c', hc', hs', hcopy⟩ := hq h hpc hqd
        exact .again hc' hs' hcopy hrest
    | false =>
      rw [List.filter_cons_of_neg (by rw [hqd]; exact Bool.false_ne_true)]
      exact hrest

end Copies

end Constraint

namespace State

open Constraint

/-- The second state has copies where the first one has shared constraints. -/
structure Copied (K : Constraint → Prop) (κ : Handle → Handle) (s s' : State) : Prop where
  wellFormed : s.WellFormed
  bindings : s'.bindings = s.bindings
  fault : s'.fault = s.fault
  pending : ∀ x, Copies K κ [] (s.constraintsOf x) (s'.constraintsOf x)

namespace Copied

variable {K : Constraint → Prop} {κ : Handle → Handle} {s s' : State} {x y : Var}
  {c d : Constraint} (h : Copied K κ s s')

include h

theorem resolve (t : Term) : s'.resolve t = s.resolve t := resolve_congr h.bindings t

theorem isFaulted : s'.isFaulted = s.isFaulted := by simp only [State.isFaulted, h.fault]

theorem keeper (x : Var) : s'.keeper x = s.keeper x := by simp only [State.keeper, h.resolve]

theorem isReady (hcd : Copy K κ c d) : s'.isReady d = s.isReady c := by
  simp only [State.isReady, hcd.vars]
  congr 1
  funext x
  simp only [State.hasValue, valueOf?, h.resolve]

theorem bind (hx : s.bindings.get? x = none) {t : Term} (ht : s.resolve t = t) (hne : t ≠ .var x)
    (hk : x.kind.Fits t) : Copied K κ (s.bind x t) (s'.bind x t) :=
  ⟨h.wellFormed.bind hx ht hne hk, congrArg (Table.insert · x t) h.bindings, h.fault, h.pending⟩

theorem withFault (reason : Fault) : Copied K κ (s.withFault reason) (s'.withFault reason) :=
  ⟨h.wellFormed.congr rfl, h.bindings, rfl, h.pending⟩

theorem keep {cs ds : List Constraint} (x : Var)
    (hcs : Copies K κ (s.constraintsOf x) cs ds) : Copied K κ (s.keep x cs) (s'.keep x ds) := by
  refine ⟨h.wellFormed.congr (bindings_keep s x cs), ?_, ?_, fun y => ?_⟩
  · rw [bindings_keep, bindings_keep, h.bindings]
  · rw [fault_keep, fault_keep, h.fault]
  · rw [constraintsOf_keep, constraintsOf_keep]
    split
    · exact (h.pending x).append (by rwa [List.append_nil])
    · exact h.pending y

/-- Whatever keeps a copy keeps the constraint. -/
theorem keeps (hcd : Copy K κ c d) (hk : s'.keeps x d = true) : s.keeps x c = true := by
  obtain ⟨e, he, hde⟩ := keeps_iff.1 hk
  obtain ⟨c', hc', hcopy⟩ := (h.pending x).exists_original he
  rw [List.mem_nil_iff, or_false] at hc'
  exact keeps_iff.2 ⟨c', hc', hcd.same hcopy hde⟩

/-- What keeps a constraint but not a copy of it keeps a steady one that is the same. -/
theorem exists_steady (hκ : Sharing K κ) (hcd : Copy K κ c d) (hk : s.keeps x c = true)
    (hk' : s'.keeps x d = false) : ∃ c' ∈ s.constraintsOf x, c'.Steady ∧ Copy K κ c' d := by
  obtain ⟨c', hc', hsame⟩ := keeps_iff.1 hk
  obtain ⟨d', hd', hcopy⟩ := (h.pending x).exists_copy hc'
  have hcd' := hcd.of_same hκ hcopy.known hsame
  refine ⟨c', hc', hκ.steady_of_ne hcopy hcd'.handle fun he => ?_, hcd'⟩
  rw [keeps_iff.2 ⟨d', hd', same_iff.2 he.symm⟩] at hk'
  cases hk'

theorem addConstraint (hκ : Sharing K κ) (hcd : Copy K κ c d) (x : Var) :
    Copied K κ (s.addConstraint x c) (s'.addConstraint x d) := by
  simp only [State.addConstraint, h.keeper]
  cases hk : s.keeps (s.keeper x) c with
  | false =>
    have hk' : s'.keeps (s.keeper x) d = false := Bool.eq_false_iff.2 fun hk' => by
      rw [h.keeps hcd hk'] at hk
      cases hk
    simp only [hk', Bool.false_eq_true, if_false]
    exact h.keep _ (.both hcd (.nil _))
  | true =>
    cases hk' : s'.keeps (s.keeper x) d with
    | true => exact h
    | false =>
      obtain ⟨c', hc', hs, hcopy⟩ := h.exists_steady hκ hcd hk hk'
      have hkeep : s.keep (s.keeper x) [] = s := rfl
      simp only [if_true, Bool.false_eq_true, if_false]
      rw [← hkeep]
      exact h.keep _ (.again hc' hs hcopy (.nil _))

theorem register (hκ : Sharing K κ) (hcd : Copy K κ c d) (xs : List Var) :
    Copied K κ (s.register c xs) (s'.register d xs) := by
  induction xs generalizing s s' with
  | nil => exact h
  | cons x xs ih => exact ih (h.addConstraint hκ hcd x)

theorem pointAt (hκ : Sharing K κ) (hx : s.bindings.get? x = none)
    (hy : s.bindings.get? y = none) (hne : x ≠ y) (hk : x.kind.Covers y.kind) :
    Copied K κ (s.pointAt x y) (s'.pointAt x y) := by
  have hb := h.bind hx (resolve_free hy) (fun he => hne (Term.var.inj he).symm) hk
  refine hb.keep y ((h.pending x).filter (fun hcd hp => ?_) (fun hcd hp hq => ?_) ?_)
  · rw [Bool.not_eq_true'] at hp ⊢
    refine Bool.eq_false_iff.2 fun hk' => ?_
    rw [h.keeps hcd hk'] at hp
    cases hp
  · rw [Bool.not_eq_false'] at hp
    rw [Bool.not_eq_true'] at hq
    exact h.exists_steady hκ hcd hp hq
  · intro e he
    cases he

theorem woken (x : Var) : Copies K κ [] (s.woken x) (s'.woken x) := by
  refine (h.pending x).filter (fun hcd hp => ?_) (fun hcd hp hq => ?_) ?_
  · rw [h.isReady hcd]
    exact hp
  · rw [h.isReady hcd, hp] at hq
    cases hq
  · intro e he
    cases he

theorem satisfied (hcd : Copy K κ c d) (hc : c.Satisfied s) : d.Satisfied s' := by
  simp only [Satisfied, hcd.check, funext h.resolve]
  exact hc

end Copied

end State

/-! ## Unification -/

open Constraint State

/-- Outcomes that differ in copies of constraints, unless one of them is no answer. -/
inductive Outcome.Copied (K : Constraint → Prop) (κ : Handle → Handle) :
    Outcome → Outcome → Prop where
  | reached {s s' : State} (h : s.Copied K κ s') : Copied K κ (.reached s) (.reached s')
  | rejected : Copied K κ .rejected .rejected
  | exhausted (o : Outcome) : Copied K κ .exhausted o
  | exhausted' (o : Outcome) : Copied K κ o .exhausted

/-- The second unifier does with copies what the first one does without, if it gives an answer. -/
def Unifier.Copied (K : Constraint → Prop) (κ : Handle → Handle) (unify unify' : Unifier) : Prop :=
  ∀ ⦃s s' : State⦄, s.Copied K κ s' → ∀ d e,
    Outcome.Copied K κ (unify s d e).value (unify' s' d e).value

section Unifying

variable {K : Constraint → Prop} {κ : Handle → Handle}

theorem Outcome.Copied.next {o o' : Outcome} {f f' : State → Outcome} : o.Copied K κ o' →
    (∀ u u', o = .reached u → u.Copied K κ u' → (f u).Copied K κ (f' u')) →
    Outcome.Copied K κ
      (match o with
        | .reached u => f u
        | o => o)
      (match o' with
        | .reached u => f' u
        | o => o) := by
  intro h hf
  cases h with
  | reached h => exact hf _ _ rfl h
  | rejected => exact .rejected
  | exhausted o => exact .exhausted _
  | exhausted' o => exact .exhausted' _

variable {nested nested' : Unifier} (hn : nested.Updating) (hcopy : nested.Copied K κ nested')
  {s s' t : State} {c d : Constraint} {cs ds seen : List Constraint}

include hcopy in
theorem pairs_copied (h : s.Copied K κ s') (pairs : List (Term × Term)) :
    (nested.pairs pairs s).value.Copied K κ (nested'.pairs pairs s').value := by
  induction pairs generalizing s s' with
  | nil => exact .reached h
  | cons p rest ih =>
    obtain ⟨d, e⟩ := p
    rw [value_pairs_cons, value_pairs_cons]
    exact (hcopy h d e).next fun u u' _ hu => ih hu

include hcopy in
theorem runWith_copied (h : s.Copied K κ s') (hcd : Copy K κ c d) :
    (c.runWith nested s).value.Copied K κ (d.runWith nested' s').value := by
  cases hc : c.check with
  | test terms judge =>
    have hterms : terms.map s'.resolve = terms.map s.resolve :=
      List.map_congr_left fun t _ => h.resolve t
    rw [value_runWith_test hc, value_runWith_test (hcd.check.trans hc), hterms]
    cases judge (terms.map s.resolve) with
    | accept => exact .reached h
    | reject => exact .rejected
    | fault reason => exact .reached (h.withFault reason)
  | unify pairs =>
    rw [value_runWith_unify hc, value_runWith_unify (hcd.check.trans hc)]
    exact pairs_copied hcopy h pairs

/-- A steady constraint that is satisfied passes its check again. -/
theorem runWith_satisfied (hs : c.Steady) (hc : c.Satisfied s) :
    (c.runWith nested s).value = .reached s := by
  obtain ⟨terms, judge, ht⟩ := hs.test
  simp only [Satisfied, ht] at hc
  rw [value_runWith_test ht, hc]

theorem satisfied_of_runWith (hs : c.Steady) (h : (c.runWith nested s).value = .reached t)
    (ht : t.isFaulted = false) : c.Satisfied t := by
  obtain ⟨terms, judge, hcheck⟩ := hs.test
  rw [value_runWith_test hcheck] at h
  simp only [Satisfied, hcheck]
  split at h
  · rename_i haccept
    cases h
    exact haccept
  · cases h
  · cases h
    cases ht

include hn hcopy in
/-- Of the constraints that are seen all steady ones are satisfied, so checking them again changes
nothing. -/
theorem wake_copied (hcs : Copies K κ seen cs ds) (h : s.Copied K κ s')
    (hready : ∀ c, c ∈ seen ∨ c ∈ cs → s.isReady c = true)
    (hseen : s.isFaulted = false → ∀ c ∈ seen, c.Steady → c.Satisfied s) :
    (nested.wake cs s).value.Copied K κ (nested'.wake ds s').value := by
  induction hcs generalizing s s' with
  | nil seen => exact .reached h
  | @both seen cs ds c d hcd _ ih =>
    cases hf : s.isFaulted with
    | true =>
      rw [wake_faulted hf, wake_faulted (h.isFaulted.trans hf)]
      exact .reached h
    | false =>
      rw [value_wake_cons hf, value_wake_cons (h.isFaulted.trans hf)]
      refine (runWith_copied hcopy h hcd).next fun u u' hu hcopied => ?_
      have hext : s.Extends u := (hn.runWith (K := K) h.wellFormed hu).extends h.wellFormed
      refine ih hcopied (fun e he => hext.isReady (hready e ?_)) fun hlive e he hs => ?_
      · simp only [List.mem_cons] at he ⊢
        tauto
      · cases List.mem_cons.1 he with
        | inl e' =>
          rw [e'] at hs ⊢
          exact satisfied_of_runWith hs hu hlive
        | inr he => exact (hseen hf e he hs).mono hs.decided (hready e (.inl he)) hext
  | @again seen cs ds c d hc hs hcd _ ih =>
    cases hf : s.isFaulted with
    | true =>
      rw [wake_faulted hf, wake_faulted (h.isFaulted.trans hf)]
      exact .reached h
    | false =>
      have hsat := h.satisfied hcd (hseen hf c hc hs)
      have hsteady := hs.of_same hcd.vars.symm hcd.check.symm
      rw [value_wake_cons (h.isFaulted.trans hf), runWith_satisfied hsteady hsat]
      exact ih h hready hseen

include hn hcopy in
theorem assign_copied (h : s.Copied K κ s') {x : Var} (hx : s.bindings.get? x = none)
    (a : Literal) : (nested.assign s x a).value.Copied K κ (nested'.assign s' x a).value := by
  cases ha : x.kind.admits a with
  | false =>
    rw [assign_refused ha, assign_refused ha]
    exact .rejected
  | true =>
    have hb : (s.bind x (.lit a)).Copied K κ (s'.bind x (.lit a)) :=
      h.bind hx (resolve_lit s a) (fun he => by cases he) ha
    rw [assign_admitted ha, assign_admitted ha]
    refine wake_copied hn hcopy (hb.woken x) hb (fun c hc => ?_) fun _ c hc => by cases hc
    exact (List.mem_filter.1 (hc.resolve_left List.not_mem_nil)).2

include hn hcopy in
theorem unifyWith_copied (hκ : Sharing K κ) :
    Unifier.Copied K κ (State.unifyWith nested) (State.unifyWith nested') := by
  intro s s' h d e
  cases hf : s.isFaulted with
  | true =>
    rw [unifyWith_faulted hf, unifyWith_faulted (h.isFaulted.trans hf)]
    exact .reached h
  | false =>
    simp only [State.unifyWith, h.isFaulted, hf, Bool.false_eq_true, if_false, h.resolve]
    cases hd : s.resolve d with
    | lit a =>
      cases he : s.resolve e with
      | lit b =>
        cases hab : a.same b with
        | true =>
          simp only [hab, if_true]
          exact .reached h
        | false =>
          simp only [hab, Bool.false_eq_true, if_false]
          exact .rejected
      | var y => exact assign_copied hn hcopy h (h.wellFormed.acyclic.free_of_resolve he) a
    | var x =>
      have hx := h.wellFormed.acyclic.free_of_resolve hd
      cases he : s.resolve e with
      | lit b => exact assign_copied hn hcopy h hx b
      | var y =>
        have hy := h.wellFormed.acyclic.free_of_resolve he
        by_cases hxy : x = y
        · simp only [if_pos hxy]
          exact .reached h
        · simp only [if_neg hxy]
          cases hk : x.kind.meet? y.kind with
          | none => exact .rejected
          | some k =>
            obtain ⟨hxk, hyk⟩ := Kind.covers_of_meet? hk
            by_cases hyk' : y.kind = k
            · simp only [if_pos hyk']
              exact .reached (h.pointAt hκ hx hy hxy (hyk' ▸ hxk))
            · simp only [if_neg hyk']
              have hxk' := (Kind.meet?_eq_left_or_right hk).resolve_right fun h' => hyk' h'.symm
              exact .reached (h.pointAt hκ hy hx (Ne.symm hxy) (hxk' ▸ hyk))

end Unifying

/-- Markers, or states that differ in copies of constraints. -/
inductive Item.Copied (K : Constraint → Prop) (κ : Handle → Handle) : Item → Item → Prop where
  | marker : Copied K κ none none
  | state {s s' : State} (h : s.Copied K κ s') : Copied K κ (some s) (some s')

section Items

variable {K : Constraint → Prop} {κ : Handle → Handle} (hκ : Sharing K κ) {s s' : State}
  {c d : Constraint}

theorem Outcome.Copied.item {o o' : Outcome} (h : o.Copied K κ o') (ho : o ≠ .exhausted)
    (ho' : o' ≠ .exhausted) : Item.Copied K κ o.state? o'.state? := by
  cases h with
  | reached h => exact .state h
  | rejected => exact .marker
  | exhausted o => exact absurd rfl ho
  | exhausted' o => exact absurd rfl ho'

theorem State.Copied.wellFormed' (h : s.Copied K κ s') : s'.WellFormed :=
  h.wellFormed.congr h.bindings

include hκ

/-- The depths need not be the same. -/
theorem State.unifyAt_copied (depth depth' : Nat) :
    Unifier.Copied K κ (unifyAt depth) (unifyAt depth') := by
  induction depth generalizing depth' with
  | zero =>
    cases depth' with
    | zero => exact unifyWith_copied exhausted_updating (fun _ _ _ _ _ => .exhausted _) hκ
    | succ depth' => exact unifyWith_copied exhausted_updating (fun _ _ _ _ _ => .exhausted _) hκ
  | succ depth ih =>
    cases depth' with
    | zero => exact unifyWith_copied (unifyAt_updating depth) (fun _ _ _ _ _ => .exhausted' _) hκ
    | succ depth' => exact unifyWith_copied (unifyAt_updating depth) (ih depth') hκ

theorem State.unifyFully_copied : Unifier.Copied K κ unifyFully unifyFully :=
  fun _ _ h d e => unifyAt_copied hκ _ _ h d e

theorem State.unify_copied (h : s.Copied K κ s') (d e : Term) :
    Item.Copied K κ (s.unify d e).value (s'.unify d e).value :=
  (unifyFully_copied hκ h d e).item (unifyFully_ne_exhausted h.wellFormed d e)
    (unifyFully_ne_exhausted h.wellFormed' d e)

theorem State.check_copied (h : s.Copied K κ s') (hcd : Copy K κ c d) :
    Item.Copied K κ (s.check c).value (s'.check d).value :=
  (runWith_copied (unifyFully_copied hκ) h hcd).item (check_ne_exhausted h.wellFormed c)
    (check_ne_exhausted h.wellFormed' d)

theorem State.post_copied (h : s.Copied K κ s') (hcd : Copy K κ c d) :
    Item.Copied K κ (s.post c).value (s'.post d).value := by
  have hreg : (s.register c c.vars).Copied K κ (s'.register d d.vars) := by
    rw [hcd.vars]
    exact h.register hκ hcd c.vars
  simp only [State.post, h.isReady hcd]
  cases s.isReady c with
  | true => exact check_copied hκ hreg hcd
  | false => exact .state hreg

end Items

end Goalbase

import Goalbase.Proofs.Enforcement

/-!
# Goalbase.Proofs.Waiting

Where constraints wait.

In a `Waiting` state no list keeps a constraint twice, and an unbound variable keeps only those
constraints that have a variable whose chain ends there. Values, pointers and faults leave a state
waiting (`Update.waiting`), and so does registering a constraint for its variables
(`waiting_register`). So a watched constraint is on the list at the end of the chain of each of its
variables exactly once (`Waiting.count_watched`), and a value wakes it exactly when it becomes ready
by that (`Waiting.count_woken_le`, `Waiting.le_count_woken`).
-/

namespace Goalbase

/-- No two of the constraints are the same. -/
def Constraint.Single (cs : List Constraint) : Prop := ∀ c : Constraint, cs.countP c.same ≤ 1

namespace State

open Constraint

variable {s t : State} {x y : Var} {c d : Constraint} {K : Constraint → Prop}

/-- Constraints are kept once, and on unbound variables only where a chain of theirs ends. -/
structure Waiting (s : State) : Prop extends s.WellFormed where
  once : ∀ x, Single (s.constraintsOf x)
  owned : ∀ x, s.bindings.get? x = none → ∀ c ∈ s.constraintsOf x,
    ∃ y ∈ c.vars, s.resolve (.var y) = .var x

theorem waiting_empty : empty.Waiting :=
  ⟨wellFormed_empty, fun _ _ => Nat.zero_le 1, fun _ _ _ h => by cases h⟩

theorem keeps_congr (h : c.same d = true) (s : State) (x : Var) : s.keeps x c = s.keeps x d := by
  have hsame : c.same = d.same := funext fun e => by
    rw [Constraint.same, Constraint.same, same_iff.1 h]
  rw [keeps, keeps, hsame]

theorem count_of_not_keeps (h : s.keeps x c = false) : (s.constraintsOf x).countP c.same = 0 :=
  List.countP_eq_zero.2 fun d hd hcd =>
    Bool.false_ne_true (h.symm.trans (keeps_iff.2 ⟨d, hd, hcd⟩))

/-- Constraints that are not kept yet are kept once when they come once. -/
theorem single_keep {cs : List Constraint} (hs : ∀ y, Single (s.constraintsOf y)) (hcs : Single cs)
    (hnew : ∀ d ∈ cs, s.keeps x d = false) (y : Var) : Single ((s.keep x cs).constraintsOf y) := by
  intro c
  rw [constraintsOf_keep]
  split
  · rw [List.countP_append]
    cases hk : s.keeps x c with
    | false =>
      rw [count_of_not_keeps hk, Nat.zero_add]
      exact hcs c
    | true =>
      have hnone : cs.countP c.same = 0 := List.countP_eq_zero.2 fun d hd hcd => by
        rw [keeps_congr hcd, hnew d hd] at hk
        cases hk
      rw [hnone, Nat.add_zero]
      exact hs x c
  · exact hs y c

theorem waiting_addConstraint (hs : s.Waiting) (hx : x ∈ c.vars) :
    (s.addConstraint x c).Waiting := by
  refine ⟨hs.congr (bindings_addConstraint s x c), ?_, fun y hy d hd => ?_⟩
  · simp only [addConstraint]
    split
    · exact hs.once
    · rename_i hnew
      refine single_keep hs.once (fun d => List.countP_le_length) fun d hd => ?_
      rw [List.mem_singleton.1 hd]
      exact Bool.eq_false_iff.2 hnew
  · rw [bindings_addConstraint] at hy
    simp only [resolve_addConstraint]
    simp only [addConstraint] at hd
    split at hd
    · exact hs.owned y hy d hd
    · rw [constraintsOf_keep] at hd
      split at hd
      · rename_i hkeeper
        cases List.mem_append.1 hd with
        | inl hd => exact hs.owned y hy d (by rw [hkeeper]; exact hd)
        | inr hd =>
          rw [List.mem_singleton.1 hd]
          refine ⟨x, hx, ?_⟩
          -- on an unbound variable it can only be kept as the end of the chain of `x`
          simp only [keeper] at hkeeper
          cases hr : s.resolve (.var x) with
          | var z => rw [hr] at hkeeper; rw [hkeeper]
          | lit a =>
            rw [hr] at hkeeper
            rw [hkeeper] at hy
            rw [resolve_free hy] at hr
            cases hr
      · exact hs.owned y hy d hd

theorem waiting_register {xs : List Var} (hs : s.Waiting) (hxs : xs ⊆ c.vars) :
    (s.register c xs).Waiting := by
  induction xs generalizing s with
  | nil => exact hs
  | cons x xs ih =>
    rw [List.cons_subset] at hxs
    exact ih (waiting_addConstraint hs hxs.1) hxs.2

theorem Update.waiting (h : Update (fun _ => False) s t) (hs : s.Waiting) : t.Waiting := by
  have hwf := h.wellFormed hs.toWellFormed
  cases h with
  | @assign z a hz _ =>
    refine ⟨hwf, hs.once, fun x hx c hc => ?_⟩
    rw [get?_bind] at hx
    split at hx
    · cases hx
    · rename_i hxz
      obtain ⟨y, hy, hyx⟩ := hs.owned x hx c hc
      refine ⟨y, hy, ?_⟩
      rw [resolve_assign hs.acyclic hz, hyx, Term.replace_ne fun h => hxz (Term.var.inj h)]
  | @point z v hz hv hne _ =>
    refine ⟨hwf, ?_, fun x hx c hc => ?_⟩
    · refine single_keep (s := s.bind z (.var v)) hs.once (fun c => ?_) fun d hd => ?_
      · exact Nat.le_trans List.filter_sublist.countP_le (hs.once z c)
      · have hnew := (List.mem_filter.1 hd).2
        rwa [Bool.not_eq_true'] at hnew
    · rw [bindings_pointAt, get?_bind] at hx
      split at hx
      · cases hx
      · rename_i hxz
        simp only [resolve_pointAt hs.acyclic hz hv hne]
        rw [pointAt, constraintsOf_keep] at hc
        have hkept : ∀ c ∈ s.constraintsOf x,
            ∃ y ∈ c.vars, (s.resolve (.var y)).replace z (.var v) = .var x := fun c hc => by
          obtain ⟨y, hy, hyx⟩ := hs.owned x hx c hc
          exact ⟨y, hy, by rw [hyx, Term.replace_ne fun h => hxz (Term.var.inj h)]⟩
        split at hc
        · rename_i hxv
          subst hxv
          cases List.mem_append.1 hc with
          | inl hc => exact hkept c hc
          | inr hc =>
            obtain ⟨y, hy, hyz⟩ := hs.owned z hz c (List.mem_filter.1 hc).1
            exact ⟨y, hy, by rw [hyz, Term.replace_self]⟩
        · exact hkept c hc
  | fault reason =>
    refine ⟨hwf, hs.once, fun x hx c hc => ?_⟩
    simp only [resolve_withFault]
    exact hs.owned x hx c hc
  | register _ hc => exact hc.elim

theorem Updates.waiting (h : Updates (fun _ => False) s t) (hs : s.Waiting) : t.Waiting := by
  generalize hK : (fun _ => False : Constraint → Prop) = K at h
  induction h with
  | refl s => exact hs
  | step h _ ih =>
    subst hK
    exact ih (h.waiting hs)

/-! ## What a value wakes -/

namespace Waiting

variable (hs : s.Waiting)

include hs

/-- A watched constraint is at the end of the chain of each of its variables once. -/
theorem count_watched (hw : s.Watches c) (hx : x ∈ c.vars) (hy : s.resolve (.var x) = .var y) :
    (s.constraintsOf y).countP c.same = 1 := by
  obtain ⟨d, hd, hcd⟩ := keeps_iff.1 (hw x hx y hy)
  exact Nat.le_antisymm (hs.once y c) (List.countP_pos_iff.2 ⟨d, hd, hcd⟩)

variable (hK : Consistent K) (hp : s.Pending K) (hc : K c) (hx : s.bindings.get? x = none)
  {a : Literal}

include hK hp hc hx

/-- A value wakes a constraint at most once, and only if it becomes ready by that. -/
theorem count_woken_le (ha : x.kind.admits a = true) :
    ((s.bind x (.lit a)).woken x).countP c.same + (s.isReady c).toNat
      ≤ ((s.bind x (.lit a)).isReady c).toNat := by
  have hb : Update K s (s.bind x (.lit a)) := .assign hx ha
  cases hr : s.isReady c with
  | true =>
    -- what is ready has no chain that ends in `x`
    have hnone : ((s.bind x (.lit a)).woken x).countP c.same = 0 :=
      List.countP_eq_zero.2 fun d hd hcd => by
        have hd := (List.mem_filter.1 hd).1
        obtain ⟨y, hy, hyx⟩ := hs.owned x hx d hd
        rw [← (hK c d hc (hp x d hd) hcd).1] at hy
        have hyv := isReady_iff.1 hr y hy
        rw [hasValue_eq_false.2 ⟨x, hyx⟩] at hyv
        cases hyv
    rw [hnone, (hb.extends hs.acyclic).isReady hr]
    exact Nat.le_refl _
  | false =>
    have hle : ((s.bind x (.lit a)).woken x).countP c.same ≤ 1 :=
      Nat.le_trans List.filter_sublist.countP_le (hs.once x c)
    cases hr' : (s.bind x (.lit a)).isReady c with
    | true => exact hle
    | false =>
      refine Nat.le_of_eq (List.countP_eq_zero.2 fun d hd hcd => ?_)
      obtain ⟨hd, hdr⟩ := List.mem_filter.1 hd
      rw [isReady, ← (hK c d hc (hp x d hd) hcd).1] at hdr
      exact Bool.false_ne_true (hr'.symm.trans hdr)

/-- A value wakes a watched constraint that becomes ready by it. -/
theorem le_count_woken (hw : s.Watches c) :
    ((s.bind x (.lit a)).isReady c).toNat
      ≤ ((s.bind x (.lit a)).woken x).countP c.same + (s.isReady c).toNat := by
  cases hr' : (s.bind x (.lit a)).isReady c with
  | false => exact Nat.zero_le _
  | true =>
    cases hr : s.isReady c with
    | true => exact Nat.le_add_left _ _
    | false =>
      obtain ⟨d, hd, hcd, -, -⟩ := exists_woken hs.acyclic hx hK hp hc hw hr hr'
      exact List.countP_pos_iff.2 ⟨d, hd, hcd⟩

end Waiting

end State

end Goalbase

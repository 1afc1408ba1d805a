import Goalbase.Proofs.Kinds

/-!
# Goalbase.Proofs.Growing

A search only adds information.

An update binds a variable that has no binding yet and puts constraints behind those that are kept
already. So a state that operations lead to from `s` has every binding of `s` and, for every
variable, all constraints of `s` in front of the new ones (`Updates.growsTo`); values stay and terms
that are equal stay equal. This holds of every state on the stream of any goal, and a unification
that was successful changes nothing when it is repeated (`search_only_adds`).
-/

namespace Goalbase

namespace State

/-- The later state holds everything that the earlier one holds. -/
structure GrowsTo (s t : State) : Prop where
  bindings : ∀ {x u}, s.bindings.get? x = some u → t.bindings.get? x = some u
  pending : ∀ x, s.constraintsOf x <+: t.constraintsOf x
  values : ∀ {x a}, s.valueOf? x = some a → t.valueOf? x = some a
  equalities : ∀ {d e}, (s.resolve d).same (s.resolve e) = true →
    (t.resolve d).same (t.resolve e) = true

variable {s t : State} {x y : Var} {d e : Term} {K : Constraint → Prop}

theorem get?_bind_of_some (hx : s.bindings.get? x = none) {u : Term}
    (hy : s.bindings.get? y = some u) (r : Term) : (s.bind x r).bindings.get? y = some u := by
  have hne : y ≠ x := fun hyx => by rw [hyx, hx] at hy; cases hy
  rw [get?_bind, if_neg hne, hy]

theorem constraintsOf_keep_grows (s : State) (x : Var) (cs : List Constraint) (y : Var) :
    s.constraintsOf y <+: (s.keep x cs).constraintsOf y := by
  rw [constraintsOf_keep]
  split
  · rename_i hyx
    rw [hyx]
    exact List.prefix_append _ _
  · exact List.prefix_refl _

theorem Update.get?_of_some (h : Update K s t) {u : Term} (hy : s.bindings.get? y = some u) :
    t.bindings.get? y = some u := by
  cases h with
  | assign hx _ => exact get?_bind_of_some hx hy _
  | point hx _ _ _ =>
    rw [bindings_pointAt]
    exact get?_bind_of_some hx hy _
  | fault reason => exact hy
  | register x hc =>
    rw [bindings_addConstraint]
    exact hy

theorem Update.constraintsOf_grows (h : Update K s t) (y : Var) :
    s.constraintsOf y <+: t.constraintsOf y := by
  cases h with
  | assign _ _ => exact List.prefix_refl _
  | @point x z _ _ _ _ => exact constraintsOf_keep_grows (s.bind x (.var z)) z _ y
  | fault reason => exact List.prefix_refl _
  | register x hc =>
    simp only [addConstraint]
    split
    · exact List.prefix_refl _
    · exact constraintsOf_keep_grows s _ _ y

theorem Updates.growsTo (h : Updates K s t) (hs : s.WellFormed) : s.GrowsTo t where
  bindings hu := by
    induction h with
    | refl s => exact hu
    | step h _ ih => exact ih (h.wellFormed hs) (h.get?_of_some hu)
  pending x := by
    induction h with
    | refl s => exact List.prefix_refl _
    | step h _ ih => exact (h.constraintsOf_grows x).trans (ih (h.wellFormed hs))
  values ha := valueOf?_eq_some.2 ((h.extends hs).resolve_lit (valueOf?_eq_some.1 ha))
  equalities := (h.extends hs).same

/-- Terms that are equal already are unified without a change. -/
theorem unifyWith_equal (nested : Unifier) (h : (s.resolve d).same (s.resolve e) = true) :
    s.unifyWith nested d e = .pure (.reached s) := by
  cases hf : s.isFaulted with
  | true => exact unifyWith_faulted hf d e
  | false =>
    simp only [unifyWith, if_neg (Bool.eq_false_iff.1 hf)]
    cases hd : s.resolve d with
    | lit a =>
      rw [hd] at h
      obtain ⟨b, hb, hba⟩ := Term.exists_lit_of_same (Term.same_symm h)
      simp only [hb, if_pos (Literal.same_symm hba)]
    | var x =>
      rw [hd] at h
      simp only [Term.eq_of_same_var (Term.same_symm h), if_true]

theorem unify_equal (h : (s.resolve d).same (s.resolve e) = true) :
    (s.unify d e).value = some s := by
  obtain ⟨nested, -, hlevel⟩ := unifyFully_level s d e
  rw [unify_eq_some, hlevel, unifyWith_equal nested h]
  rfl

/-- From a state that operations lead to, every state on the stream of a goal holds what that state
holds. Terms that were unified without a fault are equal, and to unify them again leaves the state
as it is. -/
theorem search_only_adds (h : Leads .empty s) :
    (∀ (g : Goal) (n : Nat) (t : State), (g.apply s).value.Nth n (some t) → s.GrowsTo t)
      ∧ ∀ (d e : Term) (t : State), (s.unify d e).value = some t → t.isFaulted = false →
        (t.resolve d).same (t.resolve e) = true ∧ (t.unify d e).value = some t := by
  constructor
  · intro g n t hn
    have ht : Leads s t := nth_of_lasting (lasting_leads s) (.refl s) hn
    exact (ht.updates h.wellFormed).growsTo h.wellFormed
  · intro d e t ht hlive
    have hequal := unifyFully_joining h.wellFormed (unify_eq_some.1 ht) hlive
    exact ⟨hequal, unify_equal hequal⟩

/-- The variable `w` is an alias of the integer `x`, on which a check waits that copies its value to
`v`. The value that `x` gets behind a failure and after a delay wakes it, with another constraint
declared in between. -/
theorem search_only_adds_copying :
    ∃ s t u, Leads .empty s ∧ s.bindings.get? (.any "w") = some (.var ⟨"x", .integer⟩)
      ∧ s.hasConstraint ⟨"x", .integer⟩ = true
      ∧ ((Goal.and (.constraint (.apart (.any "w") (.any "z")))
          (.or [.fail, .delay (.equal (.var ⟨"x", .integer⟩) (.lit (.word 1)))])).apply s).value.Nth 1
            (some t)
      ∧ t.valueOf? (.any "v") = some (.word 1) ∧ s.GrowsTo t
      ∧ (s.unify (.var (.any "w")) (.lit (.word 1))).value = some u ∧ u.isFaulted = false
      ∧ (u.unify (.var (.any "w")) (.lit (.word 1))).value = some u := by
  have hpoint : Leads .empty (empty.pointAt (.any "w") ⟨"x", .integer⟩) :=
    unify_leads (a := .var (.any "w")) (b := .var ⟨"x", .integer⟩) rfl
  have hs := hpoint.trans (.register _ (.any "w") (.copy ⟨"x", .integer⟩ (.any "v")))
  obtain ⟨hitems, hagain⟩ := search_only_adds hs
  have hgrows := hitems (.and (.constraint (.apart (.any "w") (.any "z")))
    (.or [.fail, .delay (.equal (.var ⟨"x", .integer⟩) (.lit (.word 1)))])) 1 _
    (.succ ⟨9, rfl⟩ (.zero ⟨9, rfl⟩))
  exact ⟨_, _, _, hs, rfl, rfl, .succ ⟨9, rfl⟩ (.zero ⟨9, rfl⟩), rfl, hgrows, rfl, rfl,
    (hagain (.var (.any "w")) (.lit (.word 1)) _ rfl rfl).2⟩

end State

end Goalbase

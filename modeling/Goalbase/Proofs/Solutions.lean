import Goalbase.Proofs.Unifying

/-!
# Goalbase.Proofs.Solutions

Unification computes most general solutions.

A state without pending constraints stands for its solutions: the assignments that give every
variable a literal of its kind and agree with every binding. Every well-formed state has one
(`exists_solves`): a literal of the kind at the end of a chain fits the whole chain. Unifying two
terms keeps just the solutions that make them equal, and fails when there are none
(`unify_most_general`).
-/

namespace Goalbase

/-- Some literal of a kind. -/
def Kind.sample : Kind → Literal
  | any => .null
  | null => .null
  | bool => .bool true
  | integer => .word 0
  | float => .number (.double (.zero false))
  | number => .word 0
  | text => .string ""
  | list => ⟨.array [], rfl⟩
  | object => ⟨.object [], rfl⟩

theorem Kind.admits_sample (k : Kind) : k.admits k.sample = true := by
  cases k <;> rfl

namespace Assignment

/-- Variables have literals of their kinds that agree with the bindings. -/
structure Solves (σ : Assignment) (s : State) : Prop where
  typed : σ.Typed
  binds : ∀ {x t}, s.bindings.get? x = some t → (σ x).same (σ.value t) = true

variable {σ : Assignment} {s t : State}

theorem Solves.same_end (h : σ.Solves s) {xs : List Var} {u e : Term} (hc : s.Chain xs u e) :
    (σ.value u).same (σ.value e) = true := by
  induction hc with
  | lit a => exact Literal.same_refl _
  | free _ => exact Literal.same_refl _
  | follow hx _ ih => exact Literal.same_trans (h.binds hx) ih

theorem Solves.same_resolve (h : σ.Solves s) (hs : s.Acyclic) (u : Term) :
    (σ.value u).same (σ.value (s.resolve u)) = true := by
  obtain ⟨xs, hc⟩ := hs.chain_resolve u
  exact h.same_end hc

/-- A solution makes two terms equal exactly when it makes their ends equal. -/
theorem Solves.same_iff (h : σ.Solves s) (hs : s.Acyclic) (d e : Term) :
    (σ.value d).same (σ.value e) = true
      ↔ (σ.value (s.resolve d)).same (σ.value (s.resolve e)) = true := by
  have hd := h.same_resolve hs d
  have he := h.same_resolve hs e
  constructor
  · intro hde
    exact Literal.same_trans (Literal.same_symm hd) (Literal.same_trans hde he)
  · intro hde
    exact Literal.same_trans hd (Literal.same_trans hde (Literal.same_symm he))

theorem solves_congr (h : t.bindings = s.bindings) : σ.Solves t ↔ σ.Solves s := by
  constructor
  · intro ht
    exact ⟨ht.typed, fun hx => ht.binds (by rw [h]; exact hx)⟩
  · intro hs
    exact ⟨hs.typed, fun hx => hs.binds (by rw [← h]; exact hx)⟩

/-- A binding of an unbound variable keeps the solutions that agree with it. -/
theorem solves_bind {x : Var} {e : Term} (hx : s.bindings.get? x = none) :
    σ.Solves (s.bind x e) ↔ σ.Solves s ∧ (σ x).same (σ.value e) = true := by
  constructor
  · intro h
    refine ⟨⟨h.typed, fun {y u} hy => h.binds ?_⟩, h.binds ?_⟩
    · have hyx : y ≠ x := fun hyx => by rw [hyx, hx] at hy; cases hy
      rw [State.get?_bind, if_neg hyx]
      exact hy
    · rw [State.get?_bind, if_pos rfl]
  · rintro ⟨h, he⟩
    refine ⟨h.typed, fun {y u} hy => ?_⟩
    rw [State.get?_bind] at hy
    split at hy
    · rename_i hyx
      cases hy
      rw [hyx]
      exact he
    · exact h.binds hy

theorem same_value (σ : Assignment) {p q : Term} (h : p.same q = true) :
    (σ.value p).same (σ.value q) = true := by
  cases p with
  | lit a =>
    cases q with
    | lit b => exact h
    | var y => cases h
  | var x =>
    rw [Term.eq_of_same_var (Term.same_symm h)]
    exact Literal.same_refl _

/-- Binding the end of one chain to the end of another keeps the solutions that make the two terms
equal. -/
theorem solves_bind_end (hs : s.Acyclic) {d e r : Term} {x : Var}
    (h : Either (s.resolve d) (s.resolve e) (.var x) r) :
    σ.Solves (s.bind x r) ↔ σ.Solves s ∧ (σ.value d).same (σ.value e) = true := by
  rw [solves_bind (h.free hs)]
  refine and_congr_right fun hσ => ?_
  rw [hσ.same_iff hs]
  obtain ⟨hd, he⟩ | ⟨hd, he⟩ := h
  · rw [hd, he]
    exact Iff.rfl
  · rw [hd, he, Literal.same_comm]
    exact Iff.rfl

/-- Variables with values have these, all others samples of the kinds at the ends of their
chains. -/
def sampled (s : State) : Assignment := fun x =>
  match s.resolve (.var x) with
  | .lit a => a
  | .var y => y.kind.sample

theorem value_sampled (hs : s.Acyclic) (u : Term) :
    (sampled s).value u = (sampled s).value (s.resolve u) := by
  cases u with
  | lit a => rw [State.resolve_lit]
  | var x =>
    simp only [value, sampled]
    cases hx : s.resolve (.var x) with
    | lit a => rfl
    | var y => simp only [State.resolve_free (hs.free_of_resolve hx)]

theorem exists_solves (hs : s.WellFormed) : ∃ σ : Assignment, σ.Solves s := by
  refine ⟨sampled s, fun x => ?_, fun {x u} hx => ?_⟩
  · have hfit := hs.fits_resolve x
    simp only [sampled]
    cases hr : s.resolve (.var x) with
    | lit a =>
      rw [hr] at hfit
      exact hfit
    | var y =>
      rw [hr] at hfit
      exact hfit _ y.kind.admits_sample
  · have hval : sampled s x = (sampled s).value u := by
      have h := value_sampled hs.acyclic (.var x)
      rw [hs.acyclic.resolve_bound hx, ← value_sampled hs.acyclic u] at h
      exact h
    rw [hval]
    exact Literal.same_refl _

end Assignment

namespace State

/-- States reached by unifications alone. -/
inductive Unified : State → Prop where
  | empty : Unified .empty
  | unify {s t : State} {d e : Term} (hs : Unified s) (ht : (s.unify d e).value = some t) :
      Unified t

/-- A well-formed state without a fault and without pending constraints. -/
structure Bare (s : State) : Prop extends s.WellFormed where
  live : s.isFaulted = false
  idle : s.Pending fun _ => False

variable {s : State}

theorem bare_empty : empty.Bare := ⟨wellFormed_empty, rfl, pending_empty _⟩

theorem Bare.woken_bind (hs : s.Bare) (x : Var) (e : Term) : (s.bind x e).woken x = [] := by
  have hnone : s.constraintsOf x = [] := List.eq_nil_iff_forall_not_mem.2 fun c hc => hs.idle x c hc
  simp only [woken, constraintsOf_bind, hnone, List.filter_nil]

/-- Unifying in a bare state fails only if no solution makes the terms equal; otherwise the state
is bare again and its solutions are those that do. -/
theorem Bare.unify_solutions (hs : s.Bare) (d e : Term) :
    ((s.unify d e).value = none
        ∧ ∀ σ : Assignment, σ.Solves s → (σ.value d).same (σ.value e) = false) ∨
      ∃ t, (s.unify d e).value = some t ∧ t.Bare ∧
        ∀ σ : Assignment, σ.Solves t ↔ σ.Solves s ∧ (σ.value d).same (σ.value e) = true := by
  obtain ⟨nested, -, hlevel⟩ := s.unifyFully_level d e
  have hcase := unifyWith_cases nested hs.live d e
  have hvalue : (s.unify d e).value = (s.unifyWith nested d e).value.state? := by
    rw [← hlevel]
    rfl
  rw [hvalue]
  generalize State.unifyWith nested s d e = o at hcase
  cases hcase with
  | equal hsame =>
    refine .inr ⟨s, rfl, hs, fun σ => ⟨fun hσ => ⟨hσ, ?_⟩, fun hσ => hσ.1⟩⟩
    rw [hσ.same_iff hs.acyclic]
    exact σ.same_value hsame
  | clash hno =>
    refine .inl ⟨rfl, fun σ hσ => Bool.eq_false_iff.2 fun hsame => ?_⟩
    rw [hσ.same_iff hs.acyclic, hno σ hσ.typed] at hsame
    cases hsame
  | @point x y hpq hne hk =>
    have hx := hpq.free hs.acyclic
    have hu : Update (fun _ => False) s (s.pointAt x y) :=
      .point hx (hpq.swap.free hs.acyclic) hne hk
    refine .inr ⟨s.pointAt x y, rfl, ⟨hu.wellFormed hs.toWellFormed, ?_, hu.pending hs.idle⟩,
      fun σ => ?_⟩
    · rw [isFaulted, fault_pointAt]
      exact hs.live
    · rw [Assignment.solves_congr (bindings_pointAt s x y)]
      exact Assignment.solves_bind_end hs.acyclic hpq
  | @assign x a hpq ha =>
    have hu : Update (fun _ => False) s (s.bind x (.lit a)) := .assign (hpq.free hs.acyclic) ha
    rw [hs.woken_bind x (.lit a)]
    exact .inr ⟨s.bind x (.lit a), rfl,
      ⟨hu.wellFormed hs.toWellFormed, hs.live, hu.pending hs.idle⟩,
      fun σ => Assignment.solves_bind_end hs.acyclic hpq⟩

theorem Unified.bare (h : s.Unified) : s.Bare := by
  induction h with
  | empty => exact bare_empty
  | @unify s t d e _ ht ih =>
    obtain ⟨hnone, -⟩ | ⟨u, hu, hbare, -⟩ := ih.unify_solutions d e
    · rw [hnone] at ht
      cases ht
    · rw [hu] at ht
      cases ht
      exact hbare

/-- Unification is sound, complete and most general: it fails exactly when no solution of the state
makes the terms equal, and else keeps exactly the solutions that do. -/
theorem unify_most_general (hs : s.Unified) (d e : Term) :
    ((s.unify d e).value = none
      ↔ ∀ σ : Assignment, σ.Solves s → (σ.value d).same (σ.value e) = false)
    ∧ ∀ t, (s.unify d e).value = some t →
      ∀ σ : Assignment, σ.Solves t ↔ σ.Solves s ∧ (σ.value d).same (σ.value e) = true := by
  obtain ⟨hnone, hno⟩ | ⟨u, hu, hbare, hsol⟩ := hs.bare.unify_solutions d e
  · refine ⟨⟨fun _ => hno, fun _ => hnone⟩, fun t ht => ?_⟩
    rw [hnone] at ht
    cases ht
  · refine ⟨⟨fun hnone => ?_, fun hno => ?_⟩, fun t ht => ?_⟩
    · rw [hu] at hnone
      cases hnone
    · -- the solution that every well-formed state has makes the terms equal
      obtain ⟨σ, hσ⟩ := Assignment.exists_solves hbare.toWellFormed
      obtain ⟨hσs, hsame⟩ := (hsol σ).1 hσ
      rw [hno σ hσs] at hsame
      cases hsame
    · rw [hu] at ht
      cases ht
      exact hsol

/-- A wide variable pointed at a narrower one takes no text, although its own kind admits it. -/
theorem unify_most_general_narrowed :
    ((empty.pointAt (.any "x") ⟨"y", .integer⟩).unify (.var (.any "x")) (.lit (.string "1"))).value
        = none
      ∧ (∀ σ : Assignment, σ.Solves (empty.pointAt (.any "x") ⟨"y", .integer⟩) →
        (σ (.any "x")).same (.string "1") = false)
      ∧ ∃ t, ((empty.pointAt (.any "x") ⟨"y", .integer⟩).unify (.var (.any "x"))
          (.lit (.word 1))).value = some t
        ∧ ∀ σ : Assignment, σ.Solves t
          ↔ σ.Solves (empty.pointAt (.any "x") ⟨"y", .integer⟩)
            ∧ (σ (.any "x")).same (.word 1) = true := by
  have hs : (empty.pointAt (.any "x") ⟨"y", .integer⟩).Unified :=
    .unify (d := .var (.any "x")) (e := .var ⟨"y", .integer⟩) .empty rfl
  obtain ⟨hnone, -⟩ := unify_most_general hs (.var (.any "x")) (.lit (.string "1"))
  obtain ⟨-, hsome⟩ := unify_most_general hs (.var (.any "x")) (.lit (.word 1))
  exact ⟨rfl, hnone.1 rfl, _, rfl, hsome _ rfl⟩

end State

end Goalbase

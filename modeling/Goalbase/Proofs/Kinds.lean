import Goalbase.Proofs.Carrying
import Goalbase.Proofs.Enforcement
import Goalbase.Proofs.Reaching

/-!
# Goalbase.Proofs.Kinds

Declared kinds are never violated.

Unification looks only at the kind of the variable at the end of a chain. That is enough, for every
binding of a reachable state fits the kind of its variable (`WellFormed.typed`): a variable is given
a literal that its kind admits or is pointed at a variable of a kind that its own covers. So the end
of a chain fits every variable on it (`WellFormed.fits_chain`), and no state on the stream of any
goal gives a variable a literal that its kind does not admit (`declared_kinds_hold`).
-/

namespace Goalbase

namespace State

variable {s : State}

/-- The end of a chain fits the kinds of all variables on the chain. -/
theorem WellFormed.fits_chain (hs : s.WellFormed) {xs : List Var} {t e : Term}
    (h : s.Chain xs t e) : ∀ x ∈ xs, x.kind.Fits e := by
  induction h with
  | lit a => exact fun _ hx => by cases hx
  | free _ => exact fun _ hx => by cases hx
  | follow hx rest ih =>
    exact List.forall_mem_cons.2 ⟨hs.fits_end rest (hs.typed hx), ih⟩

theorem lasting_leads (s : State) : Lasting (Leads s) where
  unify h h' := .trans h (unify_leads h')
  post h h' := .trans h (post_leads h')

/-- In a state that operations lead to, the chain of every variable has an end, and it fits all
variables on the chain: a literal that their kinds admit, or a variable whose kind theirs cover. No
goal on that state has an item in which a variable has a value outside its kind. -/
theorem declared_kinds_hold (h : Leads .empty s) :
    (∀ x : Var, ∃ xs e, s.Chain xs (.var x) e ∧ s.resolve (.var x) = e ∧ ∀ y ∈ xs, y.kind.Fits e)
      ∧ ∀ (g : Goal) (n : Nat) (t : State), (g.apply s).value.Nth n (some t) →
        ∀ x a, t.valueOf? x = some a → x.kind.admits a = true := by
  constructor
  · intro x
    obtain ⟨xs, hc⟩ := h.wellFormed.acyclic.chain_resolve (.var x)
    exact ⟨xs, _, hc, rfl, h.wellFormed.fits_chain hc⟩
  · intro g n t hn x a ha
    have ht : Leads .empty t := .trans h (nth_of_lasting (lasting_leads s) (.refl s) hn)
    have hfits := ht.wellFormed.fits_resolve x
    rw [valueOf?_eq_some.1 ha] at hfits
    exact hfits

/-- What the check of a constraint does here: the constraint is registered for another variable. -/
def registering (y : Var) (c : Constraint) : Unifier :=
  fun s _ _ => .pure (.reached (s.addConstraint y c))

theorem registering_leads (y : Var) (c : Constraint) (s : State) (d e : Term) {t : State}
    (h : (registering y c s d e).value = .reached t) : Leads s t := by
  cases h
  exact .register s y c

/-- The variable `w` of any kind is an alias of the integer `x`; the value that it gets wakes a
check which registers its constraint for `y`. Of `y` and the number `z` only `z` can be equal to
it. -/
theorem declared_kinds_hold_registering :
    ∃ s t, Leads .empty s ∧ s.resolve (.var (.any "w")) = .lit (.word 1)
      ∧ s.hasConstraint ⟨"y", .text⟩ = true
      ∧ ((Goal.or [.equal (.var ⟨"y", .text⟩) (.var (.any "w")),
          .equal (.var ⟨"z", .number⟩) (.var (.any "w"))]).apply s).value.Nth 1 (some t)
      ∧ t.valueOf? ⟨"z", .number⟩ = some (.word 1) ∧ Kind.number.admits (.word 1) = true := by
  have hpoint : Leads .empty (empty.pointAt (.any "w") ⟨"x", .integer⟩) :=
    unify_leads (a := .var (.any "w")) (b := .var ⟨"x", .integer⟩) rfl
  have hwoken := Leads.unify (registering_leads ⟨"y", .text⟩ (.copy (.any "w") (.any "v")))
    (s := (empty.pointAt (.any "w") ⟨"x", .integer⟩).addConstraint (.any "w")
      (.copy (.any "w") (.any "v"))) (a := .var (.any "w")) (b := .lit (.word 1)) rfl
  have hs := hpoint.trans (.trans (.register _ (.any "w") (.copy (.any "w") (.any "v"))) hwoken)
  obtain ⟨-, hitems⟩ := declared_kinds_hold hs
  have hz := hitems (Goal.or [.equal (.var ⟨"y", .text⟩) (.var (.any "w")),
      .equal (.var ⟨"z", .number⟩) (.var (.any "w"))]) 1 _
    (.succ ⟨2, rfl⟩ (.zero ⟨2, rfl⟩)) ⟨"z", .number⟩ (.word 1) rfl
  exact ⟨_, _, hs, rfl, rfl, .succ ⟨2, rfl⟩ (.zero ⟨2, rfl⟩), rfl, hz⟩

end State

end Goalbase

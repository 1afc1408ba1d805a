import Goalbase.Proofs.Copies

/-!
# Goalbase.Proofs.Mirroring

Searches with shared constraints, and the same searches with copies.

Two goals of one shape whose constraints are copies take the same steps: from states that differ in
copies they start streams of one shape (`Goal.Copied.apply`), and a step of the one stream is
mirrored by a step of the other (`Stream.Copied.step`). So pulls show the same on both: the same
markers, faults, bindings and ends, within the same bounds (`Stream.Copied.shown_eq`).
-/

namespace Goalbase

/-- What a pull shows: a marker, the bindings and the fault of a state, the end, or nothing yet. -/
inductive Shown where
  | marker
  | state (bindings : Table Var Term) (fault : Option Fault)
  | ended
  | unfinished

def Pull.shown : Pull Item → Shown
  | .answer none _ => .marker
  | .answer (some s) _ => .state s.bindings s.fault
  | .ended _ => .ended
  | .unfinished _ => .unfinished

/-- The stream to be pulled next. -/
def Pull.rest {α : Type} : Pull α → Stream
  | .answer _ t => t
  | .ended t => t
  | .unfinished t => t

/-- What pulls within the given bounds show, one after the other. -/
def Stream.shown : (bounds : List Nat) → Stream → List Shown
  | [], _ => []
  | steps :: bounds, t =>
    (t.pull steps).value.shown :: Stream.shown bounds (t.pull steps).value.rest

open Constraint

/-- Goals of one shape whose constraints are copies. -/
inductive Goal.Copied (K : Constraint → Prop) (κ : Handle → Handle) : Goal → Goal → Prop where
  | succeed : Copied K κ .succeed .succeed
  | fail : Copied K κ .fail .fail
  | equal (a b : Term) : Copied K κ (.equal a b) (.equal a b)
  | constraint {c d : Constraint} (h : Copy K κ c d) : Copied K κ (.constraint c) (.constraint d)
  | or {goals goals' : List Goal} (h : List.Forall₂ (Copied K κ) goals goals') :
      Copied K κ (.or goals) (.or goals')
  | and {first first' second second' : Goal} (h : Copied K κ first first')
      (h' : Copied K κ second second') : Copied K κ (.and first second) (.and first' second')
  | delay {g g' : Goal} (h : Copied K κ g g') : Copied K κ (.delay g) (.delay g')
  | endless {family family' : Nat → Goal} (h : ∀ k, Copied K κ (family k) (family' k)) (k : Nat) :
      Copied K κ (.endless family k) (.endless family' k)
  | labelled (label : String) {g g' : Goal} (h : Copied K κ g g') :
      Copied K κ (.labelled label g) (.labelled label g')

/-- Streams of one shape whose items, goals and states differ in copies. -/
inductive Stream.Copied (K : Constraint → Prop) (κ : Handle → Handle) : Stream → Stream → Prop where
  | items {is is' : List Item} (h : List.Forall₂ (Item.Copied K κ) is is') :
      Copied K κ (.items is) (.items is')
  | waiting {g g' : Goal} {s s' : State} (hg : g.Copied K κ g') (hs : s.Copied K κ s') :
      Copied K κ (.waiting g s) (.waiting g' s')
  | merge {queue queue' : List Stream} (h : List.Forall₂ (Copied K κ) queue queue') :
      Copied K κ (.merge queue) (.merge queue')
  | bound {source source' : Option Stream} {g g' : Goal} {started started' : List Stream}
      (h : Option.Rel (Copied K κ) source source') (hg : g.Copied K κ g')
      (hstarted : List.Forall₂ (Copied K κ) started started') (sourceNext : Bool) :
      Copied K κ (.bound source g started sourceNext) (.bound source' g' started' sourceNext)

inductive Step.Copied (K : Constraint → Prop) (κ : Handle → Handle) : Step → Step → Prop where
  | item {i i' : Item} {t t' : Stream} (hi : i.Copied K κ i') (ht : t.Copied K κ t') :
      Copied K κ (.item i t) (.item i' t')
  | silent {t t' : Stream} (h : t.Copied K κ t') : Copied K κ (.silent t) (.silent t')
  | ended : Copied K κ .ended .ended

section Mirroring

variable {K : Constraint → Prop} {κ : Handle → Handle}

theorem Stream.Copied.once {i i' : Item} (h : i.Copied K κ i') :
    (Stream.once i).Copied K κ (.once i') := .items (.cons h .nil)

/-- Goals of one shape start streams of one shape. -/
theorem Goal.Copied.apply (hκ : Sharing K κ) : ∀ {g g' : Goal} {s s' : State}, g.Copied K κ g' →
    s.Copied K κ s' → (g.apply s).value.Copied K κ (g'.apply s').value
  | .succeed, _, _, _, .succeed, hs => .once (.state hs)
  | .fail, _, _, _, .fail, _ => .once .marker
  | .equal a b, _, _, _, .equal _ _, hs => .once (State.unify_copied hκ hs a b)
  | .constraint _, _, _, _, .constraint h, hs => by
    rw [apply_constraint, apply_constraint]
    exact .once (State.post_copied hκ hs h)
  | .or _, _, _, _, .or h, hs => by
    refine .merge ?_
    rw [List.forall₂_map_left_iff, List.forall₂_map_right_iff]
    exact h.imp fun _ _ hg => .waiting hg hs
  | .and _ _, _, _, _, .and h h', hs =>
    .bound (.some (Goal.Copied.apply hκ h hs)) h' .nil true
  | .delay _, _, _, _, .delay h, hs => .waiting h hs
  | .endless _ _, _, _, _, .endless h k, hs =>
    .merge (.cons (.waiting (h k) hs) (.cons (.waiting (.delay (.endless h (k + 1))) hs) .nil))
  | .labelled _ _, _, _, _, .labelled _ h, hs => (Goal.Copied.apply hκ h hs :)

/-! ## Steps -/

variable {u u' : Step} {g g' : Goal} {behind behind' started started' : List Stream}

theorem Step.Copied.mergeStep (h : u.Copied K κ u')
    (hb : List.Forall₂ (Stream.Copied K κ) behind behind') :
    (Stream.mergeStep behind u).Copied K κ (Stream.mergeStep behind' u') := by
  cases h with
  | item hi ht => exact .item hi (.merge (List.rel_append hb (.cons ht .nil)))
  | silent ht => exact .silent (.merge (.cons ht hb))
  | ended => exact .silent (.merge hb)

theorem Step.Copied.sourceStep (hκ : Sharing K κ) (h : u.Copied K κ u') (hg : g.Copied K κ g')
    (hs : List.Forall₂ (Stream.Copied K κ) started started') (sourceNext : Bool) :
    (Stream.sourceStep g started sourceNext u).value.Copied K κ
      (Stream.sourceStep g' started' sourceNext u').value := by
  cases h with
  | item hi ht =>
    cases hi with
    | marker => exact .item .marker (.bound (.some ht) hg hs false)
    | @state s s' h =>
      simp only [Stream.sourceStep, h.isFaulted]
      cases s.isFaulted with
      | true => exact .item (.state h) (.bound (.some ht) hg hs false)
      | false =>
        have happly := Goal.Copied.apply hκ hg h
        exact .silent (.bound (.some ht) hg (List.rel_append hs (.cons happly .nil)) false)
  | silent ht => exact .silent (.bound (.some ht) hg hs sourceNext)
  | ended => exact .silent (.bound .none hg hs false)

theorem Step.Copied.startedStep {source source' : Option Stream} (h : u.Copied K κ u')
    (hsource : Option.Rel (Stream.Copied K κ) source source') (hg : g.Copied K κ g')
    (hb : List.Forall₂ (Stream.Copied K κ) behind behind') :
    (Stream.startedStep source g behind u).Copied K κ
      (Stream.startedStep source' g' behind' u') := by
  cases h with
  | item hi ht => exact .item hi (.bound hsource hg (List.rel_append hb (.cons ht .nil)) true)
  | silent ht => exact .silent (.bound hsource hg (.cons ht hb) false)
  | ended => exact .silent (.bound hsource hg hb true)

/-- Every step of the one stream is mirrored by the other. -/
theorem Stream.Copied.step (hκ : Sharing K κ) : ∀ {t t' : Stream}, t.Copied K κ t' →
    t.step.value.Copied K κ t'.step.value
  | .items [], _, .items .nil => .ended
  | .items (_ :: _), _, .items (.cons hi h) => .item hi (.items h)
  | .waiting _ _, _, .waiting hg hs => .silent (hg.apply hκ hs)
  | .merge [], _, .merge .nil => .ended
  | .merge (_ :: _), _, .merge (.cons ht hb) => (Stream.Copied.step hκ ht).mergeStep hb
  | .bound none _ [] _, _, .bound .none _ .nil _ => .ended
  | .bound (some _) _ [] _, _, .bound (.some h) hg .nil sourceNext =>
    (Stream.Copied.step hκ h).sourceStep hκ hg .nil sourceNext
  | .bound (some _) _ (_ :: _) true, _, .bound (.some h) hg (.cons ht hb) _ =>
    (Stream.Copied.step hκ h).sourceStep hκ hg (.cons ht hb) true
  | .bound (some _) _ (_ :: _) false, _, .bound (.some h) hg (.cons ht hb) _ =>
    (Stream.Copied.step hκ ht).startedStep (.some h) hg hb
  | .bound none _ (_ :: _) true, _, .bound .none hg (.cons ht hb) _ =>
    (Stream.Copied.step hκ ht).startedStep .none hg hb
  | .bound none _ (_ :: _) false, _, .bound .none hg (.cons ht hb) _ =>
    (Stream.Copied.step hκ ht).startedStep .none hg hb

/-! ## Pulls -/

/-- A pull shows the same on both streams and leaves streams of one shape. -/
theorem Stream.Copied.pull (hκ : Sharing K κ) {t t' : Stream} (h : t.Copied K κ t') (steps : Nat) :
    (t'.pull steps).value.shown = (t.pull steps).value.shown
      ∧ (t.pull steps).value.rest.Copied K κ (t'.pull steps).value.rest := by
  induction steps generalizing t t' with
  | zero => exact ⟨rfl, h⟩
  | succ steps ih =>
    have hstep := h.step hκ
    rw [Stream.value_pull_succ, Stream.value_pull_succ]
    generalize t.step.value = u at hstep
    generalize t'.step.value = u' at hstep
    cases hstep with
    | item hi ht =>
      cases hi with
      | marker => exact ⟨rfl, ht⟩
      | state hs =>
        refine ⟨?_, ht⟩
        simp only [Pull.shown, hs.bindings, hs.fault]
    | silent ht => exact ih ht
    | ended => exact ⟨rfl, h⟩

/-- All pulls show the same on streams of one shape. -/
theorem Stream.Copied.shown_eq (hκ : Sharing K κ) {t t' : Stream} (h : t.Copied K κ t')
    (bounds : List Nat) : t'.shown bounds = t.shown bounds := by
  induction bounds generalizing t t' with
  | nil => rfl
  | cons steps bounds ih =>
    obtain ⟨hshown, hrest⟩ := h.pull hκ steps
    rw [Stream.shown, Stream.shown, hshown, ih hrest]

end Mirroring

end Goalbase

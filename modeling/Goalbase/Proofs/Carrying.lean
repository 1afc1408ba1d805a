import Goalbase.Proofs.FairSearch
import Goalbase.Proofs.Pulling

/-!
# Goalbase.Proofs.Carrying

What every state on a stream keeps.

A property of states is `Lasting` when unification and constraints lead from states that have it to
states that have it. A stream carries a property when all its states have it, those on which goals
wait included. What lasts is carried by the stream of every goal on a state that has it
(`carries_apply`) and by every step of the stream (`Stream.Carries.step`), so every state that a
pull finds has it (`nth_of_lasting`).
-/

namespace Goalbase

variable {P : State → Prop}

/-- Unification and constraints keep the property. -/
structure State.Lasting (P : State → Prop) : Prop where
  unify : ∀ {s t : State} {a b : Term}, P s → (s.unify a b).value = some t → P t
  post : ∀ {s t : State} {c : Constraint}, P s → (s.post c).value = some t → P t

/-- The item has the property, if it is a state. -/
def Item.Has (P : State → Prop) (i : Item) : Prop := ∀ s, i = some s → P s

/-- All states of the stream have the property. -/
inductive Stream.Carries (P : State → Prop) : Stream → Prop where
  | items {rest : List Item} (h : ∀ i ∈ rest, Item.Has P i) : Carries P (.items rest)
  | endless {family : Nat → Item} (h : ∀ k, Item.Has P (family k)) (k : Nat) :
      Carries P (.endless family k)
  | waiting (goal : Goal) {s : State} (h : P s) : Carries P (.waiting goal s)
  | labelled (label : String) {inner : Stream} (h : Carries P inner) :
      Carries P (.labelled label inner)
  | merge {queue : List Stream} (h : ∀ t ∈ queue, Carries P t) : Carries P (.merge queue)
  | bound {source : Option Stream} (goal : Goal) {started : List Stream}
      (hsource : ∀ t, source = some t → Carries P t) (hstarted : ∀ t ∈ started, Carries P t)
      (sourceNext : Bool) : Carries P (.bound source goal started sourceNext)

inductive Step.Carries (P : State → Prop) : Step → Prop where
  | item {i : Item} {rest : Stream} (hi : Item.Has P i) (h : rest.Carries P) :
      Carries P (.item i rest)
  | silent {rest : Stream} (h : rest.Carries P) : Carries P (.silent rest)
  | ended : Carries P .ended

theorem Stream.carries_once {i : Item} (h : Item.Has P i) : (Stream.once i).Carries P :=
  .items fun j hj => by rw [List.mem_singleton.1 hj]; exact h

/-- The stream of a goal on a state with the property carries it. -/
theorem carries_apply (hP : State.Lasting P) : ∀ (g : Goal) {s : State}, P s →
    (g.apply s).value.Carries P
  | .succeed, s, hs => Stream.carries_once fun _ h => by cases h; exact hs
  | .fail, _, _ => Stream.carries_once fun _ h => by cases h
  | .equal _ _, _, hs => Stream.carries_once fun _ h => hP.unify hs h
  | .constraint c, s, hs => by
    rw [Goal.apply_constraint]
    exact Stream.carries_once fun _ h => hP.post hs h
  | .or goals, s, hs => .merge fun t ht => by
    obtain ⟨g, -, rfl⟩ := List.mem_map.1 ht
    exact .waiting g hs
  | .and first second, _, hs =>
    .bound second (fun t ht => by cases ht; exact carries_apply hP first hs)
      (fun t ht => by cases ht) true
  | .delay g, _, hs => .waiting g hs
  | .endless family k, _, hs => .merge fun t ht => by
    cases List.mem_cons.1 ht with
    | inl e => rw [e]; exact .waiting _ hs
    | inr ht => rw [List.mem_singleton.1 ht]; exact .waiting _ hs
  | .labelled _ g, _, hs => carries_apply hP g hs

/-! ## Steps -/

variable {u : Step} {goal : Goal} {behind started : List Stream} {source : Option Stream}

theorem carries_append {ts us : List Stream} (ht : ∀ t ∈ ts, t.Carries P)
    (hu : ∀ t ∈ us, t.Carries P) : ∀ t ∈ ts ++ us, t.Carries P :=
  fun t h => (List.mem_append.1 h).elim (ht t) (hu t)

theorem carries_singleton {t : Stream} (h : t.Carries P) : ∀ u ∈ [t], u.Carries P :=
  fun u hu => by rw [List.mem_singleton.1 hu]; exact h

theorem Step.Carries.mergeStep (h : u.Carries P) (hb : ∀ t ∈ behind, t.Carries P) :
    (Stream.mergeStep behind u).Carries P := by
  cases h with
  | item hi ht => exact .item hi (.merge (carries_append hb (carries_singleton ht)))
  | silent ht => exact .silent (.merge (carries_append (carries_singleton ht) hb))
  | ended => exact .silent (.merge hb)

theorem Step.Carries.sourceStep (hP : State.Lasting P) (h : u.Carries P)
    (hs : ∀ t ∈ started, t.Carries P) (sourceNext : Bool) :
    (Stream.sourceStep goal started sourceNext u).value.Carries P := by
  cases h with
  | @item i rest hi ht =>
    have hrest : ∀ t, some rest = some t → t.Carries P := fun t e => by cases e; exact ht
    cases i with
    | none => exact .item hi (.bound goal hrest hs false)
    | some s =>
      simp only [Stream.sourceStep]
      cases s.isFaulted with
      | true => exact .item hi (.bound goal hrest hs false)
      | false =>
        have happly := carries_singleton (carries_apply hP goal (hi s rfl))
        exact .silent (.bound goal hrest (carries_append hs happly) false)
  | @silent rest ht =>
    exact .silent (.bound goal (fun t e => by cases e; exact ht) hs sourceNext)
  | ended => exact .silent (.bound goal (fun t e => by cases e) hs false)

theorem Step.Carries.startedStep (h : u.Carries P) (hsource : ∀ t, source = some t → t.Carries P)
    (hb : ∀ t ∈ behind, t.Carries P) :
    (Stream.startedStep source goal behind u).Carries P := by
  cases h with
  | item hi ht =>
    exact .item hi (.bound goal hsource (carries_append hb (carries_singleton ht)) true)
  | silent ht =>
    exact .silent (.bound goal hsource (carries_append (carries_singleton ht) hb) false)
  | ended => exact .silent (.bound goal hsource hb true)

namespace Stream

theorem Carries.step (hP : State.Lasting P) {t : Stream} (h : t.Carries P) :
    t.step.value.Carries P := by
  induction h with
  | @items rest h =>
    cases rest with
    | nil => exact .ended
    | cons i rest =>
      exact .item (h i List.mem_cons_self) (.items fun j hj => h j (List.mem_cons_of_mem _ hj))
  | endless h k => exact .item (h k) (.endless h (k + 1))
  | waiting goal hs => exact .silent (carries_apply hP goal hs)
  | labelled _ h _ => exact .silent h
  | @merge queue h ih =>
    cases queue with
    | nil => exact .ended
    | cons t behind =>
      exact (ih t List.mem_cons_self).mergeStep fun v hv => h v (List.mem_cons_of_mem _ hv)
  | @bound source goal started hsource hstarted sourceNext ih ih' =>
    cases started with
    | nil =>
      cases source with
      | none => exact .ended
      | some t => exact (ih t rfl).sourceStep hP hstarted sourceNext
    | cons t behind =>
      have hb : ∀ v ∈ behind, v.Carries P := fun v hv => hstarted v (List.mem_cons_of_mem _ hv)
      have hfront : (startedStep source goal behind t.step.value).Carries P :=
        (ih' t List.mem_cons_self).startedStep hsource hb
      cases source with
      | none => cases sourceNext <;> exact hfront
      | some source =>
        cases sourceNext with
        | true => exact (ih source rfl).sourceStep hP hstarted true
        | false => exact hfront

theorem Carries.gives (hP : State.Lasting P) {t v : Stream} {i : Item} (h : t.Carries P)
    (hg : t.Gives i v) : Item.Has P i ∧ v.Carries P := by
  obtain ⟨steps, hg⟩ := hg
  induction steps generalizing t with
  | zero => cases hg
  | succ steps ih =>
    rw [value_pull_succ] at hg
    have hstep := h.step hP
    generalize t.step.value = u at hg hstep
    cases hstep with
    | item hi hrest => cases hg; exact ⟨hi, hrest⟩
    | silent hrest => exact ih hrest hg
    | ended => cases hg

theorem Carries.nth (hP : State.Lasting P) {t : Stream} {n : Nat} {i : Item} (h : t.Carries P)
    (hn : t.Nth n i) : Item.Has P i := by
  induction hn with
  | zero hg => exact (h.gives hP hg).1
  | succ hg _ ih => exact ih (h.gives hP hg).2

end Stream

/-- Every state that a pull on the stream of a goal finds has what lasts. -/
theorem nth_of_lasting (hP : State.Lasting P) {g : Goal} {s t : State} {n : Nat} (hs : P s)
    (h : (g.apply s).value.Nth n (some t)) : P t :=
  (carries_apply hP g hs).nth hP h t rfl

end Goalbase

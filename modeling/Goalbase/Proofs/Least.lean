import Goalbase.Proofs.Depth
import Goalbase.Proofs.Enforcement
import Goalbase.Proofs.Solutions
import Mathlib.Data.Sym.Sym2
import Mathlib.Data.Set.Basic

/-!
# Goalbase.Proofs.Least

A branch reaches the least state in which its steps hold.

A state is below another one if the other one makes equal whatever it makes equal. Let all steps of
a branch hold in some state without a fault. Then no unification on the branch or in a check that it
wakes is rejected, and every state on the way stays below (`reach_least`). So two branches that
demand the same, in whatever order, lead to states below each other, and these give the same answer
(`result_congr`).
-/

namespace Goalbase

namespace State

variable {s t r : State} {c : Constraint}

/-- The second state makes equal whatever the first one makes equal. -/
def Below (s t : State) : Prop := ∀ u, (t.resolve (s.resolve u)).same (t.resolve u) = true

theorem resolve_empty (u : Term) : empty.resolve u = u := by
  cases u with
  | lit a => exact resolve_lit empty a
  | var x => exact resolve_free rfl

theorem below_of_empty (t : State) : empty.Below t := fun u => by
  rw [resolve_empty]
  exact Term.same_refl _

theorem Below.congr (h : s.Below t) (hr : ∀ u, r.resolve u = s.resolve u) : r.Below t :=
  fun u => by rw [hr]; exact h u

/-- A binding that the second state has already stays below it. -/
theorem Below.replace (h : s.Below t) {x : Var} {e : Term}
    (hr : ∀ u, r.resolve u = (s.resolve u).replace x e)
    (he : (t.resolve (.var x)).same (t.resolve e) = true) : r.Below t := by
  intro u
  rw [hr]
  by_cases hx : s.resolve u = .var x
  · have hu := h u
    rw [hx] at hu ⊢
    rw [Term.replace_self]
    exact Term.same_trans (Term.same_symm he) hu
  · rw [Term.replace_ne hx]
    exact h u

theorem Below.same (h : s.Below t) {d e : Term} (hde : (t.resolve d).same (t.resolve e) = true) :
    (t.resolve (s.resolve d)).same (t.resolve (s.resolve e)) = true :=
  Term.same_trans (h d) (Term.same_trans hde (Term.same_symm (h e)))

theorem Below.value (h : s.Below t) {x : Var} {a : Literal} (ha : s.valueOf? x = some a) :
    ∃ b, t.valueOf? x = some b ∧ a.same b = true := by
  have hx := h (.var x)
  rw [valueOf?_eq_some.1 ha, resolve_lit] at hx
  obtain ⟨b, hb, hba⟩ := Term.exists_lit_of_same (Term.same_symm hx)
  exact ⟨b, valueOf?_eq_some.2 hb, Literal.same_symm hba⟩

theorem Below.isReady (h : s.Below t) (hc : s.isReady c = true) : t.isReady c = true := by
  refine isReady_iff.2 fun x hx => ?_
  obtain ⟨a, ha⟩ := hasValue_iff.1 (isReady_iff.1 hc x hx)
  obtain ⟨b, hb, -⟩ := h.value (valueOf?_eq_some.2 ha)
  exact hasValue_iff.2 ⟨b, valueOf?_eq_some.1 hb⟩

end State

/-- Unless it ran out of depth, the step has reached a state without a fault below the given one. -/
def Outcome.StaysBelow (t : State) : Outcome → Prop
  | .reached s => s.isFaulted = false ∧ s.Below t
  | .rejected => False
  | .exhausted => True

/-- What the given state makes equal is unified, and the result stays below it. -/
def Unifier.StaysBelow (K : Constraint → Prop) (t : State) (unify : Unifier) : Prop :=
  ∀ ⦃s d e⦄, s.WellFormed → s.isFaulted = false → s.Pending K → s.Below t →
    (t.resolve d).same (t.resolve e) = true → (unify s d e).value.StaysBelow t

section StaysBelow

open State

variable {K : Constraint → Prop} {t : State} (ht : t.WellFormed) (hplain : ∀ c, K c → c.Plain)
  (hmet : ∀ c, K c → t.isReady c = true → c.Satisfied t)
  {nested : Unifier} (hn : nested.Updating) (h : nested.StaysBelow K t) {s : State}

include hn h

theorem pairs_staysBelow {pairs : List (Term × Term)} (hs : s.WellFormed)
    (hlive : s.isFaulted = false) (hp : s.Pending K) (hb : s.Below t)
    (hpairs : ∀ p ∈ pairs, (t.resolve p.1).same (t.resolve p.2) = true) :
    (nested.pairs pairs s).value.StaysBelow t := by
  induction pairs generalizing s with
  | nil => exact ⟨hlive, hb⟩
  | cons p rest ih =>
    have hfirst := h hs hlive hp hb (hpairs p List.mem_cons_self)
    rw [value_pairs_cons]
    cases hu : (nested s p.1 p.2).value with
    | reached u =>
      rw [hu] at hfirst
      have hsu : Updates K s u := hn hs hu
      exact ih (hsu.wellFormed hs) hfirst.1 (hsu.pending hp) hfirst.2
        fun q hq => hpairs q (List.mem_cons_of_mem _ hq)
    | rejected =>
      rw [hu] at hfirst
      exact hfirst
    | exhausted => trivial

include hplain hmet

/-- A constraint that is ready here is ready and satisfied in the state above, so it accepts. -/
theorem runWith_staysBelow {c : Constraint} (hc : K c) (hs : s.WellFormed)
    (hlive : s.isFaulted = false) (hp : s.Pending K) (hb : s.Below t) (hr : s.isReady c = true) :
    (c.runWith nested s).value.StaysBelow t := by
  have hsat := hmet c hc (hb.isReady hr)
  cases hcheck : c.check with
  | test terms judge =>
    have hjudge := hplain c hc
    simp only [Constraint.Plain, hcheck] at hjudge
    obtain ⟨hsame, -⟩ := hjudge s t fun x hx => by
      obtain ⟨a, ha⟩ := hasValue_iff.1 (isReady_iff.1 hr x hx)
      obtain ⟨b, hb, hab⟩ := hb.value (valueOf?_eq_some.2 ha)
      exact ⟨a, b, valueOf?_eq_some.2 ha, hb, hab⟩
    simp only [Constraint.Satisfied, hcheck] at hsat
    rw [value_runWith_test hcheck, hsame, hsat]
    exact ⟨hlive, hb⟩
  | unify pairs =>
    simp only [Constraint.Satisfied, hcheck] at hsat
    rw [value_runWith_unify hcheck]
    exact pairs_staysBelow hn h hs hlive hp hb hsat

theorem wake_staysBelow {cs : List Constraint} (hcs : ∀ c ∈ cs, K c ∧ s.isReady c = true)
    (hs : s.WellFormed) (hlive : s.isFaulted = false) (hp : s.Pending K) (hb : s.Below t) :
    (nested.wake cs s).value.StaysBelow t := by
  induction cs generalizing s with
  | nil => exact ⟨hlive, hb⟩
  | cons c cs ih =>
    obtain ⟨hc, hr⟩ := hcs c List.mem_cons_self
    have hfirst := runWith_staysBelow hplain hmet hn h hc hs hlive hp hb hr
    rw [value_wake_cons hlive]
    cases hu : (c.runWith nested s).value with
    | reached u =>
      rw [hu] at hfirst
      have hsu : Updates K s u := hn.runWith hs hu
      refine ih (fun d hd => ?_) (hsu.wellFormed hs) hfirst.1 (hsu.pending hp) hfirst.2
      obtain ⟨hd, hr⟩ := hcs d (List.mem_cons_of_mem _ hd)
      exact ⟨hd, (hsu.extends hs).isReady hr⟩
    | rejected =>
      rw [hu] at hfirst
      exact hfirst
    | exhausted => trivial

include ht

theorem unifyWith_staysBelow : Unifier.StaysBelow K t (State.unifyWith nested) := by
  intro s d e hs hlive hp hb hde
  have hends := hb.same hde
  have hcase := unifyWith_cases nested hlive d e
  generalize State.unifyWith nested s d e = o at hcase
  cases hcase with
  | equal _ => exact ⟨hlive, hb⟩
  | clash hno =>
    -- the state above has a solution, and it makes the two ends equal
    obtain ⟨σ, hσ⟩ := Assignment.exists_solves ht
    have hsame := (hσ.same_iff ht.acyclic _ _).2 (σ.same_value hends)
    rw [hno σ hσ.typed] at hsame
    cases hsame
  | @point x y hpq hne hk =>
    have hx := hpq.free hs.acyclic
    have hy := hpq.swap.free hs.acyclic
    refine ⟨?_, hb.replace (resolve_pointAt hs.acyclic hx hy hne) (hpq.symm.same hends)⟩
    rw [isFaulted, fault_pointAt]
    exact hlive
  | @assign x a hpq ha =>
    have hx := hpq.free hs.acyclic
    have hu : Update K s (s.bind x (.lit a)) := .assign hx ha
    exact wake_staysBelow hplain hmet hn h
      (fun c hc => ⟨hp x c (List.mem_filter.1 hc).1, (List.mem_filter.1 hc).2⟩)
      (hu.wellFormed hs) hlive (hu.pending hp)
      (hb.replace (resolve_assign hs.acyclic hx a) (hpq.symm.same hends))

end StaysBelow

section Unification

open State

variable {K : Constraint → Prop} {t : State} (ht : t.WellFormed) (hplain : ∀ c, K c → c.Plain)
  (hmet : ∀ c, K c → t.isReady c = true → c.Satisfied t)

include ht hplain hmet

theorem unifyAt_staysBelow (depth : Nat) : Unifier.StaysBelow K t (unifyAt depth) := by
  induction depth with
  | zero =>
    refine unifyWith_staysBelow ht hplain hmet exhausted_updating ?_
    intro s d e _ _ _ _ _
    trivial
  | succ depth ih => exact unifyWith_staysBelow ht hplain hmet (unifyAt_updating depth) ih

theorem unifyFully_staysBelow : Unifier.StaysBelow K t unifyFully := by
  intro s d e hs hlive hp hb hde
  exact unifyAt_staysBelow ht hplain hmet _ hs hlive hp hb hde

end Unification

/-- With depth enough, a step that stays below has reached a state. -/
theorem Outcome.StaysBelow.exists_state {t : State} {o : Outcome} (h : o.StaysBelow t)
    (hne : o ≠ .exhausted) : ∃ s, o.state? = some s ∧ s.isFaulted = false ∧ s.Below t := by
  cases o with
  | reached s => exact ⟨s, rfl, h⟩
  | rejected => exact h.elim
  | exhausted => exact absurd rfl hne

namespace Leaf

open State

/-- The step holds: its terms are equal, or its constraint is satisfied if it is ready. -/
def Met (t : State) : Leaf → Prop
  | .equal d e => (t.resolve d).same (t.resolve e) = true
  | .constraint c => t.isReady c = true → c.Satisfied t

theorem Holds.met {l : Leaf} {t : State} (h : l.Holds t) : l.Met t := by
  cases l with
  | equal d e => exact h
  | constraint c => exact h.2

variable {K : Constraint → Prop} {t : State} (ht : t.WellFormed) (hplain : ∀ c, K c → c.Plain)
  (hmet : ∀ c, K c → t.isReady c = true → c.Satisfied t)

include ht hplain hmet

theorem run_least {l : Leaf} (hl : l.Over K) (hm : l.Met t) {s : State} (hs : s.WellFormed)
    (hlive : s.isFaulted = false) (hp : s.Pending K) (hb : s.Below t) :
    ∃ r, (l.run s).value = some r ∧ r.isFaulted = false ∧ r.Below t := by
  have hunify := unifyFully_staysBelow ht hplain hmet
  cases l with
  | equal d e =>
    exact (hunify hs hlive hp hb hm).exists_state (unifyFully_ne_exhausted hs d e)
  | constraint c =>
    have hreg := updates_register (K := K) hl s c.vars
    have hb' : (s.register c c.vars).Below t := hb.congr (resolve_register s c.vars)
    have hlive' : (s.register c c.vars).isFaulted = false := by
      rw [isFaulted, fault_register]
      exact hlive
    simp only [run, State.post]
    split
    · rename_i hr
      rw [← isReady_register (c := c) s c.vars] at hr
      exact (runWith_staysBelow hplain hmet unifyFully_updating hunify hl (hreg.wellFormed hs)
        hlive' (hreg.pending hp) hb' hr).exists_state (check_ne_exhausted (hreg.wellFormed hs) c)
    · exact ⟨_, rfl, hlive', hb'⟩

end Leaf

section Reach

open State

variable {K : Constraint → Prop} {s t : State}

/-- A branch whose steps all hold in a state without a fault reaches a state below it. -/
theorem reach_least (hK : Constraint.Consistent K) (hplain : ∀ c, K c → c.Plain)
    (ht : t.WellFormed) (hmet : ∀ c, K c → t.isReady c = true → c.Satisfied t) {b : List Leaf}
    (hl : ∀ l ∈ b, l.Over K ∧ l.Met t) (hs : s.WellFormed) (hlive : s.isFaulted = false)
    (hp : s.Pending K) (hb : s.Below t) : ∃ r, reach b s = some r ∧ r.Below t := by
  induction b generalizing s with
  | nil => exact ⟨s, reach_nil hlive, hb⟩
  | cons l b ih =>
    obtain ⟨hover, hm⟩ := hl l List.mem_cons_self
    obtain ⟨u, hu, hlive', hb'⟩ := Leaf.run_least ht hplain hmet hover hm hs hlive hp hb
    have hsu := (l.run_holds hK (fun c hc => (hplain c hc).decided) hover hs hp hu).1
    obtain ⟨r, hr, hrt⟩ := ih (fun l' hl' => hl l' (List.mem_cons_of_mem _ hl'))
      (hsu.wellFormed hs) hlive' (hsu.pending hp) hb'
    exact ⟨r, reach_cons_some.2 ⟨u, hu, hlive', hr⟩, hrt⟩

end Reach

/-! ## What a branch demands -/

/-- What a step asks for; the two sides of an equality have no order. -/
inductive Demand where
  | equal (sides : Sym2 Term)
  | constraint (c : Constraint)

def Leaf.demand : Leaf → Demand
  | .equal d e => .equal s(d, e)
  | .constraint c => .constraint c

/-- What the steps of a branch ask for. -/
def demanded (b : List Leaf) : Set Demand := {d | ∃ l ∈ b, l.demand = d}

theorem Leaf.met_of_demand {l m : Leaf} {t : State} (h : l.demand = m.demand) (hl : l.Met t) :
    m.Met t := by
  cases l with
  | equal d e =>
    cases m with
    | equal d' e' =>
      obtain ⟨rfl, rfl⟩ | ⟨rfl, rfl⟩ := Sym2.eq_iff.1 (Demand.equal.inj h)
      · exact hl
      · exact Term.same_symm hl
    | constraint c => cases h
  | constraint c =>
    cases m with
    | equal d e => cases h
    | constraint c' =>
      cases h
      exact hl

/-! ## Answers -/

/-- The value of every variable, if it has one, up to equality. -/
def State.answer (s : State) : Var → Option Datum := fun x => (s.valueOf? x).map Literal.datum

theorem State.answer_eq {s t : State} (h : s.Below t) (h' : t.Below s) : s.answer = t.answer := by
  funext x
  simp only [answer]
  cases hs : s.valueOf? x with
  | some a =>
    obtain ⟨b, hb, hab⟩ := h.value hs
    rw [hb, Option.map_some, Option.map_some, Literal.datum_eq_iff.2 hab]
  | none =>
    cases ht : t.valueOf? x with
    | none => rfl
    | some b =>
      obtain ⟨a, ha, -⟩ := h'.value ht
      rw [hs] at ha
      cases ha

/-- The answer that a branch gives from the empty state. -/
def result (b : List Leaf) : Option (Var → Option Datum) := (reach b .empty).map State.answer

section Results

open State

variable {K : Constraint → Prop} (hK : Constraint.Consistent K) (hplain : ∀ c, K c → c.Plain)
  {b b' : List Leaf} (hb : ∀ l ∈ b, l.Over K) (hb' : ∀ l ∈ b', l.Over K)
  (h : demanded b = demanded b')

include hK hplain hb hb' h

/-- If a branch reaches a state, one that demands the same reaches a state below it. -/
theorem reach_of_demands {t : State} (ht : reach b .empty = some t) :
    ∃ r, reach b' .empty = some r ∧ r.Below t := by
  obtain ⟨hup, -, hholds⟩ := reach_holds hK (fun c hc => (hplain c hc).decided) hb
    wellFormed_empty (pending_empty K) ht
  have hmet : ∀ l ∈ b', l.Met t := by
    intro l hl
    obtain ⟨m, hm, hml⟩ : l.demand ∈ demanded b := by
      rw [h]
      exact ⟨l, hl, rfl⟩
    exact Leaf.met_of_demand hml (hholds m hm).met
  -- the constraints that are met in the state reached
  refine reach_least (K := fun c => K c ∧ (t.isReady c = true → c.Satisfied t))
    (fun c d hc hd => hK c d hc.1 hd.1) (fun c hc => hplain c hc.1)
    (hup.wellFormed wellFormed_empty) (fun c hc => hc.2) (fun l hl => ⟨?_, hmet l hl⟩)
    wellFormed_empty rfl (pending_empty _)
    (below_of_empty t)
  cases l with
  | equal d e => trivial
  | constraint c => exact ⟨hb' _ hl, hmet _ hl⟩

theorem result_congr : result b = result b' := by
  cases hr : reach b .empty with
  | some t =>
    obtain ⟨r, hr', hrt⟩ := reach_of_demands hK hplain hb hb' h hr
    obtain ⟨t', ht', htr⟩ := reach_of_demands hK hplain hb' hb h.symm hr'
    rw [hr] at ht'
    cases ht'
    rw [result, result, hr, hr', Option.map_some, Option.map_some, State.answer_eq htr hrt]
  | none =>
    cases hr' : reach b' .empty with
    | none => rw [result, result, hr, hr']
    | some r =>
      obtain ⟨t, ht, -⟩ := reach_of_demands hK hplain hb' hb h.symm hr'
      rw [hr] at ht
      cases ht

end Results

end Goalbase

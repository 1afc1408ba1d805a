import Goalbase.Proofs.Depth
import Goalbase.Proofs.Enforcement
import Goalbase.Proofs.Observing
import Goalbase.Proofs.Reaching
import Mathlib.Data.Finset.Card
import Mathlib.Logic.Relation

/-!
# Goalbase.Proofs.Nesting

Unifications inside unifications, and why they come to an end.

A check that a unification wakes may ask for further unifications, and these may wake checks again.
`Call.Asks` relates a unification to those which the checks that it wakes ask for. The variables
that a call mentions and that have no value are its `openVars`; a call which is asked for has fewer
of them (`Call.Asks.openVars_ssubset`), so wake-ups are nested no deeper than there are open variables
(`Call.Nests.le_card`). With that the bound on the depth makes no difference, and unification is one
level of unification whose checks unify in the same way (`unifyFully_eq`).
-/

namespace Goalbase

open State

/-! ## Deeper unifiers -/

/-- The second unifier does what the first one does, unless that was cut short. -/
def Unifier.Agrees (unify unify' : Unifier) : Prop :=
  ∀ ⦃s d e⦄, s.WellFormed → (unify s d e).value ≠ .exhausted → unify' s d e = unify s d e

section Agrees

variable {nested nested' : Unifier} {s : State}

theorem Traced.next_congr {o o' : Traced Outcome} {f f' : State → Traced Outcome}
    (ho : o.value ≠ .exhausted → o' = o)
    (hf : ∀ u, o.value = .reached u → (f u).value ≠ .exhausted → f' u = f u)
    (h : (o.next f).value ≠ .exhausted) : o'.next f' = o.next f := by
  cases hu : o.value with
  | reached u =>
    rw [Traced.next_reached hu] at h
    have hu' : o.value ≠ .exhausted := by
      rw [hu]
      exact fun h => by cases h
    rw [ho hu', Traced.next_reached hu, Traced.next_reached hu, hf u hu h]
  | rejected =>
    have hstop : ∀ u, o.value ≠ .reached u := fun u h => by rw [hu] at h; cases h
    rw [Traced.next_stopped hstop] at h
    rw [ho h, Traced.next_stopped hstop, Traced.next_stopped hstop]
  | exhausted =>
    have hstop : ∀ u, o.value ≠ .reached u := fun u h => by rw [hu] at h; cases h
    rw [Traced.next_stopped hstop] at h
    exact absurd hu h

variable (hn : nested.Updating) (ha : nested.Agrees nested')

include hn ha

theorem pairs_agrees {pairs : List (Term × Term)} (hs : s.WellFormed)
    (h : (nested.pairs pairs s).value ≠ .exhausted) :
    nested'.pairs pairs s = nested.pairs pairs s := by
  induction pairs generalizing s with
  | nil => rfl
  | cons p rest ih =>
    rw [pairs_cons] at h ⊢
    refine Traced.next_congr (ha hs) (fun u hu => ih ?_) h
    exact (hn hs hu : Updates (fun _ => True) s u).wellFormed hs

theorem runWith_agrees {c : Constraint} (hs : s.WellFormed)
    (h : (c.runWith nested s).value ≠ .exhausted) : c.runWith nested' s = c.runWith nested s := by
  cases hc : c.check with
  | test terms judge => simp only [Constraint.runWith, hc]
  | unify pairs =>
    rw [runWith_unify nested hc] at h ⊢
    rw [runWith_unify nested' hc, pairs_agrees hn ha hs h]

theorem wake_agrees {cs : List Constraint} (hs : s.WellFormed)
    (h : (nested.wake cs s).value ≠ .exhausted) : nested'.wake cs s = nested.wake cs s := by
  induction cs generalizing s with
  | nil => rfl
  | cons c cs ih =>
    cases hf : s.isFaulted with
    | true => rw [wake_faulted hf, wake_faulted hf]
    | false =>
      rw [wake_cons nested c cs hf] at h ⊢
      rw [wake_cons nested' c cs hf]
      refine Traced.next_congr (runWith_agrees hn ha hs) (fun u hu => ih ?_) h
      exact (hn.runWith hs hu : Updates (fun _ => True) s u).wellFormed hs

theorem assign_agrees {x : Var} {a : Literal} (hs : s.WellFormed) (hx : s.bindings.get? x = none)
    (h : (nested.assign s x a).value ≠ .exhausted) :
    nested'.assign s x a = nested.assign s x a := by
  cases hk : x.kind.admits a with
  | false => rw [assign_refused hk, assign_refused hk]
  | true =>
    rw [assign_admitted hk] at h ⊢
    rw [assign_admitted hk]
    have hb : Update (fun _ => True) s (s.bind x (.lit a)) := .assign hx hk
    exact wake_agrees hn ha (hb.wellFormed hs) h

theorem unifyWith_agrees : Unifier.Agrees (unifyWith nested) (unifyWith nested') := by
  intro s d e hs h
  cases hf : s.isFaulted with
  | true => rw [unifyWith_faulted hf, unifyWith_faulted hf]
  | false =>
    simp only [unifyWith, if_neg (Bool.eq_false_iff.1 hf)] at h ⊢
    cases hd : s.resolve d with
    | lit a =>
      cases he : s.resolve e with
      | lit b => rfl
      | var y =>
        simp only [hd, he] at h
        exact assign_agrees hn ha hs (hs.acyclic.free_of_resolve he) h
    | var x =>
      cases he : s.resolve e with
      | lit b =>
        simp only [hd, he] at h
        exact assign_agrees hn ha hs (hs.acyclic.free_of_resolve hd) h
      | var y => rfl

end Agrees

namespace State

theorem unifyAt_agrees_succ (depth : Nat) :
    Unifier.Agrees (unifyAt depth) (unifyAt (depth + 1)) := by
  induction depth with
  | zero => exact unifyWith_agrees exhausted_updating fun _ _ _ _ h => absurd rfl h
  | succ depth ih => exact unifyWith_agrees (unifyAt_updating depth) ih

/-- A greater depth makes no difference once the depth is enough. -/
theorem unifyAt_agrees {n m : Nat} (h : n ≤ m) : Unifier.Agrees (unifyAt n) (unifyAt m) := by
  induction h with
  | refl => exact fun _ _ _ _ _ => rfl
  | step _ ih =>
    intro s d e hs hne
    have hm := ih hs hne
    rw [unifyAt_agrees_succ _ hs (by rw [hm]; exact hne), hm]

theorem unifyAt_agrees_unifyFully (depth : Nat) : Unifier.Agrees (unifyAt depth) unifyFully := by
  intro s d e hs hne
  cases Nat.le_total depth (s.room [d, e]) with
  | inl hle => exact unifyAt_agrees hle hs hne
  | inr hle => exact (unifyAt_agrees hle hs (unifyFully_ne_exhausted hs d e)).symm

/-- Unification is one level of unification whose checks unify in the same way, without any bound on
the depth. -/
theorem unifyFully_eq {s : State} (hs : s.WellFormed) (d e : Term) :
    s.unifyFully d e = s.unifyWith unifyFully d e := by
  have hne := unifyFully_ne_exhausted hs d e
  rw [unifyFully] at hne ⊢
  cases hroom : s.room [d, e] with
  | zero =>
    rw [hroom] at hne
    exact (unifyWith_agrees exhausted_updating (fun _ _ _ _ h => absurd rfl h) hs hne).symm
  | succ depth =>
    rw [hroom] at hne
    exact (unifyWith_agrees (unifyAt_updating depth) (unifyAt_agrees_unifyFully depth) hs hne).symm

end State

/-! ## What is mentioned -/

namespace State

variable {M : List Var} {s : State}

theorem pendingVars_subset (h : s.Pending (Names M)) : s.pendingVars ⊆ M := by
  intro y hy
  obtain ⟨⟨x, cs⟩, he, hy⟩ := List.mem_flatMap.1 hy
  obtain ⟨c, hc, hy⟩ := List.mem_flatMap.1 hy
  refine h x c ?_ hy
  rw [constraintsOf, Table.get?, valueAt?_of_mem s.pending.distinct he]
  exact hc

end State

/-! ## Calls -/

/-- A unification of two terms in a state. -/
structure Call where
  state : State
  first : Term
  second : Term

namespace Call

def run (c : Call) : Traced Outcome := c.state.unifyFully c.first c.second

/-- The mentioned variables that have no value: those of the two terms, of the pending constraints
and of their checks. -/
def openVars (c : Call) : Finset Var :=
  (varsOf [c.first, c.second] ++ c.state.pendingVars).toFinset.filter
    fun x => c.state.hasValue x = false

/-- The unification gives the variable the literal as its value. -/
structure Gives (c : Call) (x : Var) (a : Literal) : Prop where
  live : c.state.isFaulted = false
  ends : Either (c.state.resolve c.first) (c.state.resolve c.second) (.var x) (.lit a)
  admitted : x.kind.admits a = true

/-- Unifying the pairs one after the other asks for the call. -/
inductive AskedByPairs : List (Term × Term) → State → Call → Prop where
  | here (d e : Term) (rest : List (Term × Term)) (s : State) :
      AskedByPairs ((d, e) :: rest) s ⟨s, d, e⟩
  | later {d e : Term} {rest : List (Term × Term)} {s t : State} {c : Call}
      (h : (s.unifyFully d e).value = .reached t) (hrest : AskedByPairs rest t c) :
      AskedByPairs ((d, e) :: rest) s c

/-- Checking the constraints one after the other asks for the call. -/
inductive AskedByChecks : List Constraint → State → Call → Prop where
  | here {k : Constraint} {pairs : List (Term × Term)} (rest : List Constraint) {s : State}
      {c : Call} (hs : s.isFaulted = false) (hk : k.check = .unify pairs)
      (h : AskedByPairs pairs s c) : AskedByChecks (k :: rest) s c
  | later {k : Constraint} {rest : List Constraint} {s t : State} {c : Call}
      (hs : s.isFaulted = false) (h : (k.runWith unifyFully s).value = .reached t)
      (hrest : AskedByChecks rest t c) : AskedByChecks (k :: rest) s c

/-- A check that the first call wakes asks for the second call. -/
def Asks (c c' : Call) : Prop :=
  ∃ x a, c.Gives x a
    ∧ AskedByChecks ((c.state.bind x (.lit a)).woken x) (c.state.bind x (.lit a)) c'

/-- The call wakes a check, and wake-ups are nested in it to the given depth. -/
inductive Nests : Nat → Call → Prop where
  | wakes {c : Call} (h : c.run.trace ≠ []) : Nests 1 c
  | deeper {c c' : Call} {n : Nat} (h : c.Asks c') (hrest : Nests n c') : Nests (n + 1) c

variable {K : Constraint → Prop} {c c' : Call} {s : State} {x : Var} {a : Literal}

theorem AskedByPairs.updates {pairs : List (Term × Term)} (h : AskedByPairs pairs s c)
    (hs : s.WellFormed) : Updates K s c.state ∧ (c.first, c.second) ∈ pairs := by
  induction h with
  | here d e rest s => exact ⟨.refl s, List.mem_cons_self⟩
  | later h _ ih =>
    have hst : Updates K _ _ := unifyFully_updating hs h
    obtain ⟨htc, hmem⟩ := ih (hst.wellFormed hs)
    exact ⟨hst.trans htc, List.mem_cons_of_mem _ hmem⟩

theorem AskedByChecks.updates {cs : List Constraint} (h : AskedByChecks cs s c)
    (hs : s.WellFormed) : Updates K s c.state
      ∧ ∃ k ∈ cs, ∃ pairs, k.check = .unify pairs ∧ (c.first, c.second) ∈ pairs := by
  induction h with
  | here rest _ hk h =>
    obtain ⟨hsc, hmem⟩ := h.updates hs
    exact ⟨hsc, _, List.mem_cons_self, _, hk, hmem⟩
  | later _ h _ ih =>
    have hst : Updates K _ _ := unifyFully_updating.runWith hs h
    obtain ⟨htc, k, hk, hpairs⟩ := ih (hst.wellFormed hs)
    exact ⟨hst.trans htc, k, List.mem_cons_of_mem _ hk, hpairs⟩

theorem varsOf_pair_subset {d e : Term} {pairs : List (Term × Term)} (h : (d, e) ∈ pairs) :
    varsOf [d, e] ⊆ varsOf (Check.unify pairs).terms := by
  intro w hw
  rw [mem_varsOf] at hw ⊢
  exact List.mem_flatMap.2 ⟨(d, e), h, hw⟩

section Gives

variable (hs : c.state.WellFormed) (h : c.Gives x a)

include hs h

theorem Gives.updates (K : Constraint → Prop) : Updates K c.state (c.state.bind x (.lit a)) :=
  .single (.assign (h.ends.free hs.acyclic) h.admitted)

/-- One of the two terms is a variable that gets its value now. -/
theorem Gives.exists_open :
    ∃ w ∈ c.openVars, (c.state.bind x (.lit a)).hasValue w = true := by
  obtain ⟨w, hw, hwx⟩ := h.ends.exists_mem
  refine ⟨w, Finset.mem_filter.2 ⟨?_, hasValue_eq_false.2 ⟨x, hwx⟩⟩, hasValue_iff.2 ⟨a, ?_⟩⟩
  · exact List.mem_toFinset.2 (List.mem_append_left _ hw)
  · rw [resolve_assign hs.acyclic (h.ends.free hs.acyclic), hwx, Term.replace_self]

end Gives

/-- A call that is asked for has fewer open variables. -/
theorem Asks.openVars_ssubset (h : c.Asks c') (hs : c.state.WellFormed) :
    c'.state.WellFormed ∧ c'.openVars ⊂ c.openVars := by
  obtain ⟨x, a, hgives, hasked⟩ := h
  have hb := hgives.updates hs (Names c.state.pendingVars)
  obtain ⟨hu, k, hk, pairs, hpairs, hmem⟩ :=
    hasked.updates (K := Names c.state.pendingVars) (hb.wellFormed hs)
  have hcc := hb.trans hu
  have hext := hcc.extends hs
  refine ⟨hcc.wellFormed hs, Finset.ssubset_iff_subset_ne.2 ⟨fun y hy => ?_, fun heq => ?_⟩⟩
  · obtain ⟨hy, hyv⟩ := Finset.mem_filter.1 hy
    refine Finset.mem_filter.2 ⟨List.mem_toFinset.2 (List.mem_append_right _ ?_), ?_⟩
    · cases List.mem_append.1 (List.mem_toFinset.1 hy) with
      | inl hy =>
        have hnamed := hb.pending c.state.pending_names x k (List.mem_filter.1 hk).1
        rw [Names, hpairs] at hnamed
        exact hnamed (List.mem_append_right _ (varsOf_pair_subset hmem hy))
      | inr hy => exact pendingVars_subset (hcc.pending c.state.pending_names) hy
    · refine Bool.eq_false_iff.2 fun hv => ?_
      rw [hext.hasValue hv] at hyv
      cases hyv
  · obtain ⟨w, hw, hwv⟩ := hgives.exists_open hs
    rw [← heq] at hw
    have hwv' := (Finset.mem_filter.1 hw).2
    rw [(hu.extends (hb.wellFormed hs)).hasValue hwv] at hwv'
    cases hwv'

/-- A call that wakes a check has given an open variable a value before any check is run. -/
theorem exists_open_of_checked (hs : c.state.WellFormed) (h : c.run.trace ≠ []) :
    ∃ w ∈ c.openVars, ∀ k u, .checked k u ∈ c.run.trace → u.hasValue w = true := by
  rw [run, unifyFully_eq hs] at h ⊢
  cases hf : c.state.isFaulted with
  | true =>
    rw [unifyWith_faulted hf] at h
    exact absurd rfl h
  | false =>
    have hcase := unifyWith_cases unifyFully hf c.first c.second
    generalize unifyWith unifyFully c.state c.first c.second = o at hcase h ⊢
    cases hcase with
    | equal _ => exact absurd rfl h
    | clash _ => exact absurd rfl h
    | point _ _ _ => exact absurd rfl h
    | @assign x a hpq ha =>
      have hgives : c.Gives x a := ⟨hf, hpq, ha⟩
      have hb := hgives.updates hs fun _ => True
      have hwb := hb.wellFormed hs
      obtain ⟨w, hw, hwv⟩ := hgives.exists_open hs
      refine ⟨w, hw, fun k u hku => ?_⟩
      obtain ⟨_, _, heq, hran⟩ := wake_allRan unifyFully_updating unifyFully_observing hwb
        (hb.pending fun _ _ _ => trivial)
        (fun d hd => ⟨(List.mem_filter.1 hd).2, trivial⟩) _ hku
      cases heq
      exact ((hran.before fun _ => True).extends hwb).hasValue hwv

/-- Wake-ups are nested no deeper than there are open variables. -/
theorem Nests.le_card {n : Nat} (h : Nests n c) (hs : c.state.WellFormed) :
    n ≤ c.openVars.card := by
  induction h with
  | wakes h =>
    obtain ⟨w, hw, -⟩ := exists_open_of_checked hs h
    exact Finset.card_pos.2 ⟨w, hw⟩
  | deeper h _ ih =>
    obtain ⟨hs', hlt⟩ := h.openVars_ssubset hs
    exact Nat.lt_of_le_of_lt (ih hs') (Finset.card_lt_card hlt)

theorem wellFormed_of_asks (h : Relation.ReflTransGen Asks c c') (hs : c.state.WellFormed) :
    c'.state.WellFormed := by
  induction h with
  | refl => exact hs
  | tail _ h ih => exact (h.openVars_ssubset ih).1

end Call

namespace State

/-- The chain of every term has an end, and it follows each binding at most once. A unification
returns, and so does every unification that a woken check asks for: each of them is one level of
unification whose checks unify in the same way, has given an open variable a value before it runs a
check, and asks only for calls with fewer open variables. So no more wake-ups are nested than there
are open variables. -/
theorem unify_terminates {K : Constraint → Prop} {s : State} (hs : s.Reachable K) (a b : Term) :
    (∀ t, ∃ xs e, s.Chain xs t e ∧ xs.Nodup ∧ xs.length ≤ s.bindings.size
        ∧ s.walk xs.length t = e ∧ s.resolve t = e ∧ s.Chain [] e e)
      ∧ (∀ c, Relation.ReflTransGen Call.Asks ⟨s, a, b⟩ c →
        c.run.value ≠ .exhausted ∧ c.run = c.state.unifyWith unifyFully c.first c.second
        ∧ (c.run.trace ≠ [] →
          ∃ w ∈ c.openVars, ∀ k u, .checked k u ∈ c.run.trace → u.hasValue w = true)
        ∧ ∀ c', c.Asks c' → c'.openVars ⊂ c.openVars)
      ∧ ∀ n, Call.Nests n ⟨s, a, b⟩ → n ≤ (Call.mk s a b).openVars.card := by
  have hwf := hs.wellFormed
  refine ⟨fun t => ?_, fun c hc => ?_, fun n hn => hn.le_card hwf⟩
  · obtain ⟨xs, e, hchain⟩ := hwf.acyclic t
    exact ⟨xs, e, hchain, hchain.nodup, hchain.length_le, hchain.walk_eq (Nat.le_refl _),
      hchain.resolve_eq, hchain.end_chain⟩
  · have hcw := Call.wellFormed_of_asks hc hwf
    exact ⟨unifyFully_ne_exhausted hcw c.first c.second, unifyFully_eq hcw c.first c.second,
      Call.exists_open_of_checked hcw, fun c' h => (h.openVars_ssubset hcw).2⟩

/-- Two variables, each of which is made equal to the other as soon as it has a value. -/
def mirrored (x y : Var) : State :=
  (empty.addConstraint x (.copy x y)).addConstraint y ⟨.built 1, [y], .unify [(.var y, .var x)], []⟩

theorem reachable_mirrored (x y : Var) : (mirrored x y).Reachable fun _ => True :=
  .register (.register .empty x trivial) y trivial

/-- A value of one variable wakes the check of the other one, which wakes the check of the first. -/
theorem unify_terminates_mirrored :
    (mirrored (.any "x") (.any "y")).Reachable (fun _ => True)
      ∧ Call.Nests 2 ⟨mirrored (.any "x") (.any "y"), .var (.any "x"), .lit (.word 1)⟩
      ∧ 2 ≤ (Call.mk (mirrored (.any "x") (.any "y")) (.var (.any "x")) (.lit (.word 1))).openVars.card
      ∧ (Call.mk (mirrored (.any "x") (.any "y")) (.var (.any "x")) (.lit (.word 1))).run.value
        ≠ .exhausted := by
  have hs := reachable_mirrored (.any "x") (.any "y")
  obtain ⟨-, hcalls, hnests⟩ := unify_terminates hs (.var (.any "x")) (.lit (.word 1))
  have hgives : (Call.mk (mirrored (.any "x") (.any "y")) (.var (.any "x")) (.lit (.word 1))).Gives
      (.any "x") (.word 1) := ⟨rfl, .inl ⟨rfl, rfl⟩, rfl⟩
  have hasks : (Call.mk (mirrored (.any "x") (.any "y")) (.var (.any "x")) (.lit (.word 1))).Asks
      ⟨(mirrored (.any "x") (.any "y")).bind (.any "x") (.lit (.word 1)), .var (.any "x"),
        .var (.any "y")⟩ :=
    ⟨.any "x", .word 1, hgives, .here (k := .copy (.any "x") (.any "y")) [] rfl rfl (.here _ _ _ _)⟩
  have htwo := Call.Nests.deeper hasks (.wakes (List.cons_ne_nil _ _))
  exact ⟨hs, htwo, hnests 2 htwo, (hcalls _ .refl).1⟩

end State

end Goalbase

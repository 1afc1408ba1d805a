import Goalbase.Proofs.Rounds
import Goalbase.Query

/-!
# Goalbase.Proofs.Collecting

The results of a stream, and what is collected from them.

`Passes t ss u` says that `t` leads to `u` through the live states `ss`, failure markers and nothing
else; behind them `t` may fault (`FaultsAfter`) or end (`EndsAfter`). A pull on the results of `t`
finds only that (`next_sound`) and finds it if it is given enough steps (`Passes.exists_next`,
`FaultsAfter.exists_next`, `EndsAfter.exists_next`), and so does the loop that collects results up
to a limit: `collect_sound` is for every bound on the steps, `collect_rows`, `collect_fault` and
`collect_all` for large ones.
-/

namespace Goalbase

namespace Stream

/-- Steps lead through live states and failure markers, but through no faulted state. -/
inductive Passes : Stream → List State → Stream → Prop where
  | refl (t : Stream) : Passes t [] t
  | silent {t u v : Stream} {ss : List State} (h : t.step.value = .silent u)
      (rest : Passes u ss v) : Passes t ss v
  | marker {t u v : Stream} {ss : List State} (h : t.step.value = .item none u)
      (rest : Passes u ss v) : Passes t ss v
  | state {t u v : Stream} {s : State} {ss : List State} (h : t.step.value = .item (some s) u)
      (hs : s.fault = none) (rest : Passes u ss v) : Passes t (s :: ss) v

/-- Behind the live states comes a faulted one. -/
def FaultsAfter (t : Stream) (ss : List State) (reason : Fault) : Prop :=
  ∃ u s v, Passes t ss u ∧ u.step.value = .item (some s) v ∧ s.fault = some reason

/-- The live states are followed by the end. -/
def EndsAfter (t : Stream) (ss : List State) : Prop :=
  ∃ u, Passes t ss u ∧ u.step.value = .ended

variable {t u v : Stream} {s : State} {ss rs : List State} {reason : Fault}

theorem Passes.trans (h : Passes t ss u) (h' : Passes u rs v) : Passes t (ss ++ rs) v := by
  induction h with
  | refl t => exact h'
  | silent hs _ ih => exact .silent hs (ih h')
  | marker hs _ ih => exact .marker hs (ih h')
  | state hs hlive _ ih => exact .state hs hlive (ih h')

theorem FaultsAfter.trans (h : Passes t ss u) (h' : u.FaultsAfter rs reason) :
    t.FaultsAfter (ss ++ rs) reason := by
  obtain ⟨w, s, v, hw, hs, hfault⟩ := h'
  exact ⟨w, s, v, h.trans hw, hs, hfault⟩

theorem EndsAfter.trans (h : Passes t ss u) (h' : u.EndsAfter rs) : t.EndsAfter (ss ++ rs) := by
  obtain ⟨w, hw, hend⟩ := h'
  exact ⟨w, h.trans hw, hend⟩

theorem Passes.exists_first (h : Passes t (s :: ss) u) :
    ∃ w v, Passes t [] w ∧ w.step.value = .item (some s) v ∧ s.fault = none ∧ Passes v ss u := by
  generalize hall : s :: ss = all at h
  induction h with
  | refl t => cases hall
  | silent hs _ ih =>
    obtain ⟨w, v, hw, hrest⟩ := ih hall
    exact ⟨w, v, .silent hs hw, hrest⟩
  | marker hs _ ih =>
    obtain ⟨w, v, hw, hrest⟩ := ih hall
    exact ⟨w, v, .marker hs hw, hrest⟩
  | @state t u v _ _ hs hlive hrest _ =>
    cases hall
    exact ⟨t, u, .refl t, hs, hlive, hrest⟩

/-! ## Pulls on results -/

theorem value_pullWith_succ {α : Type} (keep : Item → Option α) (n : Nat) (t : Stream) :
    (t.pullWith keep (n + 1)).value = match t.step.value with
      | .ended => .ended t
      | .silent u => (u.pullWith keep n).value
      | .item i u =>
        match keep i with
        | some a => .answer a u
        | none => (u.pullWith keep n).value := by
  simp only [pullWith, pullOnto]
  cases t.step.value with
  | ended => rfl
  | silent u => exact value_pullOnto _ _ n u
  | item i u =>
    cases hk : keep i with
    | some a => simp only [hk]
    | none =>
      simp only [hk]
      exact value_pullOnto _ _ n u

theorem value_next_succ (n : Nat) (t : Stream) :
    (Results.next (n + 1) ⟨some t⟩).value = match t.step.value with
      | .ended => .ended ⟨none⟩
      | .silent u => (Results.next n ⟨some u⟩).value
      | .item none u => (Results.next n ⟨some u⟩).value
      | .item (some s) u =>
        match s.fault with
        | some reason => .fault reason ⟨none⟩
        | none => .state s ⟨some u⟩ := by
  simp only [Results.next, Traced.map, value_pullWith_succ]
  cases t.step.value with
  | ended => rfl
  | silent u => rfl
  | item i u =>
    cases i with
    | none => rfl
    | some s =>
      simp only [result?]
      cases s.fault <;> rfl

/-- What a pull on the results of a stream may find. -/
def MayFind (t : Stream) : Results.Next → Prop
  | .state s r => ∃ u, r = ⟨some u⟩ ∧ Passes t [s] u
  | .fault reason r => r = ⟨none⟩ ∧ t.FaultsAfter [] reason
  | .ended r => r = ⟨none⟩ ∧ t.EndsAfter []
  | .unfinished _ => True

theorem MayFind.trans {found : Results.Next} (h : Passes t [] u) (h' : u.MayFind found) :
    t.MayFind found := by
  cases found with
  | state s r =>
    obtain ⟨v, hr, hv⟩ := h'
    exact ⟨v, hr, h.trans hv⟩
  | fault reason r => exact ⟨h'.1, h'.2.trans h⟩
  | ended r => exact ⟨h'.1, h'.2.trans h⟩
  | unfinished r => trivial

/-- What a pull found is there. -/
theorem next_sound (steps : Nat) (t : Stream) : t.MayFind (Results.next steps ⟨some t⟩).value := by
  induction steps generalizing t with
  | zero => trivial
  | succ n ih =>
    rw [value_next_succ]
    cases ht : t.step.value with
    | ended => exact ⟨rfl, t, .refl t, ht⟩
    | silent u => exact (ih u).trans (.silent ht (.refl u))
    | item i u =>
      cases i with
      | none => exact (ih u).trans (.marker ht (.refl u))
      | some s =>
        dsimp only
        cases hs : s.fault with
        | none => exact ⟨u, rfl, .state ht hs (.refl u)⟩
        | some reason => exact ⟨rfl, t, s, u, .refl t, ht, hs⟩

/-- Silent steps and failure markers are taken out of the steps of a pull. -/
theorem Passes.next_eq (h : Passes t [] u) :
    ∃ n, ∀ steps, (Results.next (n + steps) ⟨some t⟩).value
      = (Results.next steps ⟨some u⟩).value := by
  generalize hnil : ([] : List State) = ss at h
  induction h with
  | refl t => exact ⟨0, fun steps => by rw [Nat.zero_add]⟩
  | state _ _ _ _ => cases hnil
  | silent hs _ ih =>
    obtain ⟨n, hn⟩ := ih hnil
    refine ⟨n + 1, fun steps => ?_⟩
    rw [Nat.add_right_comm, value_next_succ, hs]
    exact hn steps
  | marker hs _ ih =>
    obtain ⟨n, hn⟩ := ih hnil
    refine ⟨n + 1, fun steps => ?_⟩
    rw [Nat.add_right_comm, value_next_succ, hs]
    exact hn steps

/-- With enough steps a pull finds what the first step behind them gives. -/
theorem Passes.next_eventually (h : Passes t [] u) {found : Results.Next}
    (hu : ∀ steps, (Results.next (steps + 1) ⟨some u⟩).value = found) :
    ∃ n, ∀ steps, n ≤ steps → (Results.next steps ⟨some t⟩).value = found := by
  obtain ⟨n, hn⟩ := h.next_eq
  refine ⟨n + 1, fun steps hle => ?_⟩
  obtain ⟨k, rfl⟩ := Nat.exists_eq_add_of_le hle
  rw [Nat.add_assoc, Nat.add_comm 1 k, hn]
  exact hu k

theorem Passes.exists_next (h : Passes t (s :: ss) u) :
    ∃ v, Passes v ss u
      ∧ ∃ n, ∀ steps, n ≤ steps → (Results.next steps ⟨some t⟩).value = .state s ⟨some v⟩ := by
  obtain ⟨w, v, hw, hs, hlive, hrest⟩ := h.exists_first
  refine ⟨v, hrest, hw.next_eventually fun steps => ?_⟩
  simp only [value_next_succ, hs, hlive]

theorem FaultsAfter.exists_next (h : t.FaultsAfter [] reason) :
    ∃ n, ∀ steps, n ≤ steps → (Results.next steps ⟨some t⟩).value = .fault reason ⟨none⟩ := by
  obtain ⟨u, s, v, hu, hs, hfault⟩ := h
  refine hu.next_eventually fun steps => ?_
  simp only [value_next_succ, hs, hfault]

theorem EndsAfter.exists_next (h : t.EndsAfter []) :
    ∃ n, ∀ steps, n ≤ steps → (Results.next steps ⟨some t⟩).value = .ended ⟨none⟩ := by
  obtain ⟨u, hu, hend⟩ := h
  refine hu.next_eventually fun steps => ?_
  simp only [value_next_succ, hend]

end Stream

/-! ## Collecting -/

namespace Query

open Goalbase.Stream

variable {vars : List Var} {rows : List Projection} {limit : Option Nat} {t u : Stream} {s : State}
  {ss : List State} {reason : Fault}

/-- The rows of states, one for each. -/
def rowsOf (vars : List Var) (ss : List State) : List Projection := ss.map fun s => s.project vars

theorem rowsOf_cons (vars : List Var) (s : State) (ss : List State) :
    rowsOf vars (s :: ss) = s.project vars :: rowsOf vars ss := rfl

theorem value_collect (steps : Nat) (vars : List Var) (rows : List Projection)
    (before : List Observation) (limit : Option Nat) (tries : Nat) (r : Results) :
    (collect steps vars rows before limit tries r).value
      = (collect steps vars rows [] limit tries r).value := by
  induction tries generalizing rows before limit r with
  | zero => rfl
  | succ tries ih =>
    simp only [collect]
    by_cases hlimit : limit = some 0
    · rw [if_pos hlimit, if_pos hlimit]
    · rw [if_neg hlimit, if_neg hlimit]
      cases (r.next steps).value with
      | state s rest =>
        dsimp only
        rw [ih, ih _ ([] ++ (r.next steps).trace)]
      | fault reason rest => rfl
      | ended rest => rfl
      | unfinished rest => rfl

theorem value_collect_reached (steps tries : Nat) (vars : List Var) (rows : List Projection)
    (r : Results) : (collect steps vars rows [] (some 0) tries r).value = .rows rows.reverse := by
  cases tries <;> simp only [collect, if_true]

theorem value_collect_succ (hlimit : limit ≠ some 0) (steps tries : Nat) (r : Results) :
    (collect steps vars rows [] limit (tries + 1) r).value
      = match (r.next steps).value with
        | .state s rest =>
          (collect steps vars (s.project vars :: rows) [] (limit.map fun n => n - 1) tries
            rest).value
        | .fault reason _ => .fault reason
        | .ended _ => .rows rows.reverse
        | .unfinished _ => .unfinished := by
  simp only [collect]
  rw [if_neg hlimit]
  cases (r.next steps).value with
  | state s rest => exact value_collect _ _ _ _ _ _ _
  | fault reason rest => rfl
  | ended rest => rfl
  | unfinished rest => rfl

/-- What may be collected behind the rows that are held, with so many still allowed. -/
def MayCollect (vars : List Var) (rows : List Projection) (limit : Option Nat) (t : Stream) :
    Selection → Prop
  | .rows found => ∃ ss, found = rows.reverse ++ rowsOf vars ss
    ∧ ((limit = some ss.length ∧ ∃ u, Passes t ss u)
      ∨ (∀ n ∈ limit, ss.length < n) ∧ t.EndsAfter ss)
  | .fault reason => ∃ ss, (∀ n ∈ limit, ss.length < n) ∧ t.FaultsAfter ss reason
  | .unfinished => True

theorem MayCollect.cons {found : Selection} (h : Passes t [s] u) (hlimit : limit ≠ some 0)
    (h' : MayCollect vars (s.project vars :: rows) (limit.map fun n => n - 1) u found) :
    MayCollect vars rows limit t found := by
  have hbelow : ∀ ss : List State, (∀ n ∈ limit.map fun n => n - 1, ss.length < n) →
      ∀ n ∈ limit, (s :: ss).length < n := by
    intro ss hss n hn
    have := hss (n - 1) (Option.mem_map_of_mem _ hn)
    rw [List.length_cons]
    omega
  cases found with
  | unfinished => trivial
  | fault reason =>
    obtain ⟨ss, hss, hfault⟩ := h'
    exact ⟨s :: ss, hbelow ss hss, hfault.trans h⟩
  | rows found =>
    obtain ⟨ss, hfound, hrest⟩ := h'
    refine ⟨s :: ss, ?_, ?_⟩
    · rw [hfound, List.reverse_cons, List.append_assoc]
      rfl
    · obtain ⟨hreached, v, hv⟩ | ⟨hss, hend⟩ := hrest
      · refine .inl ⟨?_, v, h.trans hv⟩
        obtain ⟨n, rfl, hn⟩ := Option.map_eq_some_iff.1 hreached
        have hne : n ≠ 0 := fun hzero => hlimit (congrArg some hzero)
        rw [List.length_cons]
        exact congrArg some (by omega)
      · exact .inr ⟨hbelow ss hss, hend.trans h⟩

/-- What was collected within any bound is there. -/
theorem collect_sound (steps : Nat) (vars : List Var) (rows : List Projection)
    (limit : Option Nat) (tries : Nat) (t : Stream) :
    MayCollect vars rows limit t (collect steps vars rows [] limit tries ⟨some t⟩).value := by
  induction tries generalizing rows limit t with
  | zero =>
    rw [collect]
    split
    · rename_i hlimit
      exact ⟨[], (List.append_nil _).symm, .inl ⟨hlimit, t, .refl t⟩⟩
    · trivial
  | succ tries ih =>
    by_cases hlimit : limit = some 0
    · rw [hlimit, value_collect_reached]
      exact ⟨[], (List.append_nil _).symm, .inl ⟨rfl, t, .refl t⟩⟩
    · have hbelow : ∀ n ∈ limit, ([] : List State).length < n := by
        intro n hn
        refine Nat.pos_of_ne_zero fun hzero => hlimit ?_
        rw [Option.mem_def.1 hn, hzero]
      rw [value_collect_succ hlimit]
      have hnext := next_sound steps t
      generalize (Results.next steps ⟨some t⟩).value = found at hnext ⊢
      cases found with
      | state s rest =>
        obtain ⟨u, rfl, hu⟩ := hnext
        exact (ih _ _ u).cons hu hlimit
      | fault reason rest => exact ⟨[], hbelow, hnext.2⟩
      | ended rest => exact ⟨[], (List.append_nil _).symm, .inr ⟨hbelow, hnext.2⟩⟩
      | unfinished rest => trivial

/-- With enough steps for a pull, states that the limit allows are collected one by one. -/
theorem collect_passes (vars : List Var) (h : Passes t ss u) (hlimit : ∀ n ∈ limit, ss.length ≤ n) :
    ∃ v, Passes v [] u ∧ ∃ bound, ∀ steps, bound ≤ steps → ∀ tries rows,
      (collect steps vars rows [] limit (tries + ss.length) ⟨some t⟩).value
        = (collect steps vars ((rowsOf vars ss).reverse ++ rows) []
          (limit.map fun n => n - ss.length) tries ⟨some v⟩).value := by
  induction ss generalizing t limit with
  | nil =>
    refine ⟨t, h, 0, fun steps _ tries rows => ?_⟩
    cases limit <;> rfl
  | cons s ss ih =>
    obtain ⟨v, hv, n, hn⟩ := h.exists_next
    have hzero : limit ≠ some 0 := by
      intro hlimit'
      have := hlimit 0 hlimit'
      rw [List.length_cons] at this
      omega
    have hrest : ∀ n ∈ limit.map fun n => n - 1, ss.length ≤ n := by
      intro n hn
      obtain ⟨m, hm, rfl⟩ := Option.map_eq_some_iff.1 hn
      have := hlimit m hm
      rw [List.length_cons] at this
      omega
    obtain ⟨w, hw, bound, hbound⟩ := ih hv hrest
    refine ⟨w, hw, max n bound, fun steps hsteps tries rows => ?_⟩
    rw [List.length_cons, ← Nat.add_assoc, value_collect_succ hzero, hn steps (by omega)]
    dsimp only
    rw [hbound steps (by omega), Option.map_map]
    have hsub : (fun n => n - ss.length) ∘ (fun n => n - 1) = fun n => n - (ss.length + 1) := by
      funext n
      simp only [Function.comp_apply]
      omega
    rw [hsub, rowsOf_cons, List.reverse_cons, List.append_assoc, List.singleton_append]

theorem collect_rows (vars : List Var) (h : Passes t ss u) :
    ∃ bound, ∀ steps, bound ≤ steps → ∀ tries, ss.length ≤ tries →
      (collect steps vars [] [] (some ss.length) tries ⟨some t⟩).value
        = .rows (rowsOf vars ss) := by
  obtain ⟨v, -, bound, hbound⟩ := collect_passes vars h
    fun n hn => Nat.le_of_eq (Option.some.inj hn)
  refine ⟨bound, fun steps hsteps tries htries => ?_⟩
  obtain ⟨k, rfl⟩ := Nat.exists_eq_add_of_le' htries
  rw [hbound steps hsteps, Option.map_some, Nat.sub_self, value_collect_reached, List.append_nil,
    List.reverse_reverse]

theorem left_ne_zero {k : Nat} (hlimit : ∀ n ∈ limit, k < n) :
    (limit.map fun n => n - k) ≠ some 0 := by
  intro hzero
  obtain ⟨n, hn, hsub⟩ := Option.map_eq_some_iff.1 hzero
  have := hlimit n hn
  omega

theorem collect_fault (vars : List Var) (h : t.FaultsAfter ss reason)
    (hlimit : ∀ n ∈ limit, ss.length < n) :
    ∃ bound, ∀ steps, bound ≤ steps → ∀ tries, ss.length < tries →
      (collect steps vars [] [] limit tries ⟨some t⟩).value = .fault reason := by
  obtain ⟨u, s, w, hu, hs, hfault⟩ := h
  obtain ⟨v, hv, bound, hbound⟩ := collect_passes vars hu
    fun n hn => Nat.le_of_lt (hlimit n hn)
  obtain ⟨n, hn⟩ := FaultsAfter.exists_next ⟨u, s, w, hv, hs, hfault⟩
  refine ⟨max n bound, fun steps hsteps tries htries => ?_⟩
  obtain ⟨k, rfl⟩ : ∃ k, tries = k + 1 + ss.length := ⟨tries - ss.length - 1, by omega⟩
  rw [hbound steps (by omega), value_collect_succ (left_ne_zero hlimit), hn steps (by omega)]

theorem collect_all (vars : List Var) (h : t.EndsAfter ss) (hlimit : ∀ n ∈ limit, ss.length < n) :
    ∃ bound, ∀ steps, bound ≤ steps → ∀ tries, ss.length < tries →
      (collect steps vars [] [] limit tries ⟨some t⟩).value = .rows (rowsOf vars ss) := by
  obtain ⟨u, hu, hend⟩ := h
  obtain ⟨v, hv, bound, hbound⟩ := collect_passes vars hu
    fun n hn => Nat.le_of_lt (hlimit n hn)
  obtain ⟨n, hn⟩ := EndsAfter.exists_next ⟨u, hv, hend⟩
  refine ⟨max n bound, fun steps hsteps tries htries => ?_⟩
  obtain ⟨k, rfl⟩ : ∃ k, tries = k + 1 + ss.length := ⟨tries - ss.length - 1, by omega⟩
  rw [hbound steps (by omega), value_collect_succ (left_ne_zero hlimit), hn steps (by omega)]
  dsimp only
  rw [List.append_nil, List.reverse_reverse]

/-- A limit that is not reached changes nothing, whatever the bounds. -/
theorem collect_unlimited {n : Nat} (h : ∀ ss u, Passes t ss u → ss.length ≠ n) (steps tries : Nat)
    (vars : List Var) (rows : List Projection) :
    (collect steps vars rows [] (some n) tries ⟨some t⟩).value
      = (collect steps vars rows [] none tries ⟨some t⟩).value := by
  induction tries generalizing n t rows with
  | zero =>
    have hn : n ≠ 0 := (h [] t (.refl t)).symm
    simp only [collect, Option.some.injEq, hn, reduceCtorEq, if_false]
  | succ tries ih =>
    have hn : n ≠ 0 := (h [] t (.refl t)).symm
    have hnone : (none : Option Nat) ≠ some 0 := nofun
    rw [value_collect_succ fun hzero => hn (Option.some.inj hzero), value_collect_succ hnone]
    have hnext := next_sound steps t
    generalize (Results.next steps ⟨some t⟩).value = found at hnext ⊢
    cases found with
    | state s rest =>
      obtain ⟨u, rfl, hu⟩ := hnext
      refine ih (fun ss v hv hlength => ?_) _
      refine h (s :: ss) v (hu.trans hv) ?_
      rw [List.length_cons, hlength]
      exact Nat.sub_add_cancel (Nat.pos_of_ne_zero hn)
    | fault reason rest => rfl
    | ended rest => rfl
    | unfinished rest => rfl

end Query

end Goalbase

import Goalbase.Proofs.Collecting
import Goalbase.Proofs.FairSearch
import Goalbase.Proofs.Running

/-!
# Goalbase.Proofs.Selecting

A selection is complete and hides no fault.

The streams of a query's trees are merged in rounds. `Succeeds ts ss` says that the round-robin of
the streams `ts` begins with the successes `ss` and has no fault before or among them,
`Faults ts ss reason` that they are followed by its first fault, and `Completes ts ss` that they are
all there is. What is selected and what is streamed is exactly that (`SelectsFrom`), for every query
whose trees can be converted; for the others it is the error of the first that cannot
(`select_complete`).
-/

namespace Goalbase

namespace Stream

/-- No item is a faulted state. -/
def Faultless (is : List Item) : Prop := ∀ s, some s ∈ is → s.fault = none

/-- The round-robin begins with these successes, without a fault. -/
def Succeeds (ts : List Stream) (ss : List State) : Prop :=
  ∃ is, RoundRobin ts is ∧ Faultless is ∧ live is = ss

/-- The first fault of the round-robin, and the successes before it. -/
def Faults (ts : List Stream) (ss : List State) (reason : Fault) : Prop :=
  ∃ is s, RoundRobin ts (is ++ [some s]) ∧ Faultless is ∧ live is = ss ∧ s.fault = some reason

/-- All successes of the round-robin, which has no fault. -/
def Completes (ts : List Stream) (ss : List State) : Prop :=
  ∃ is, WholeRoundRobin ts is ∧ Faultless is ∧ live is = ss

variable {t u v : Stream} {s : State} {is : List Item} {ss : List State} {reason : Fault}
  {ts : List Stream}

theorem faultless_cons_none : Faultless (none :: is) ↔ Faultless is := by
  simp [Faultless]

theorem faultless_cons_some : Faultless (some s :: is) ↔ s.fault = none ∧ Faultless is := by
  simp [Faultless]

theorem live_of_fault_eq_none (h : s.fault = none) (is : List Item) :
    live (some s :: is) = s :: live is := live_live (by rw [State.isFaulted, h]; rfl)

/-- Live states are passed where items without a fault are. -/
theorem passes_iff : Passes t ss u ↔ ∃ is, Walks t is u ∧ Faultless is ∧ live is = ss := by
  constructor
  · intro h
    induction h with
    | refl t => exact ⟨[], .refl t, nofun, rfl⟩
    | silent hs _ ih =>
      obtain ⟨is, hw, hfaultless, hlive⟩ := ih
      exact ⟨is, .silent hs hw, hfaultless, hlive⟩
    | marker hs _ ih =>
      obtain ⟨is, hw, hfaultless, hlive⟩ := ih
      exact ⟨none :: is, .item hs hw, faultless_cons_none.2 hfaultless, hlive⟩
    | state hs hnone _ ih =>
      obtain ⟨is, hw, hfaultless, rfl⟩ := ih
      exact ⟨some _ :: is, .item hs hw, faultless_cons_some.2 ⟨hnone, hfaultless⟩,
        live_of_fault_eq_none hnone is⟩
  · rintro ⟨is, hw, hfaultless, rfl⟩
    induction hw with
    | refl t => exact .refl t
    | silent hs _ ih => exact .silent hs (ih hfaultless)
    | @item t u v i is hs _ ih =>
      cases i with
      | none => exact .marker hs (ih (faultless_cons_none.1 hfaultless))
      | some s =>
        obtain ⟨hnone, hrest⟩ := faultless_cons_some.1 hfaultless
        rw [live_of_fault_eq_none hnone]
        exact .state hs hnone (ih hrest)

/-- Items that were passed are without a fault, or there was a first one. -/
theorem Walks.faultless_or_faults (h : Walks t is u) :
    Faultless is ∨ ∃ ss reason, t.FaultsAfter ss reason := by
  induction h with
  | refl t => exact .inl nofun
  | @silent t u v is hs _ ih =>
    have hu : Passes t [] u := .silent hs (.refl u)
    exact ih.imp_right fun ⟨_, reason, hfault⟩ => ⟨_, reason, hfault.trans hu⟩
  | @item t u v i is hs _ ih =>
    cases i with
    | none =>
      have hu : Passes t [] u := .marker hs (.refl u)
      exact ih.imp faultless_cons_none.2 fun ⟨_, reason, hfault⟩ => ⟨_, reason, hfault.trans hu⟩
    | some s =>
      cases hreason : s.fault with
      | some reason => exact .inr ⟨[], reason, t, s, u, .refl t, hs, hreason⟩
      | none =>
        have hu : Passes t [s] u := .state hs hreason (.refl u)
        exact ih.imp (fun hfaultless => faultless_cons_some.2 ⟨hreason, hfaultless⟩)
          fun ⟨_, reason, hfault⟩ => ⟨_, reason, hfault.trans hu⟩

theorem Walks.exists_item {i : Item} (h : Walks t (is ++ [i]) u) :
    ∃ v w, Walks t is v ∧ v.step.value = .item i w := by
  generalize hall : is ++ [i] = all at h
  induction h generalizing is with
  | refl t => simp at hall
  | silent hs _ ih =>
    obtain ⟨v, w, hv, hw⟩ := ih hall
    exact ⟨v, w, .silent hs hv, hw⟩
  | @item t u _ j js hs _ ih =>
    cases is with
    | nil =>
      cases hall
      exact ⟨t, u, .refl t, hs⟩
    | cons j' is =>
      cases hall
      obtain ⟨v, w, hv, hw⟩ := ih rfl
      exact ⟨v, w, .item hs hv, hw⟩

/-! ## Merges -/

theorem passes_merge_iff : (∃ u, Passes (merge ts) ss u) ↔ Succeeds ts ss := by
  simp only [passes_iff, Succeeds, ← walks_merge_iff]
  constructor
  · rintro ⟨u, is, hw, hrest⟩
    exact ⟨is, ⟨u, hw⟩, hrest⟩
  · rintro ⟨is, ⟨u, hw⟩, hrest⟩
    exact ⟨u, is, hw, hrest⟩

theorem faultsAfter_merge_iff : (merge ts).FaultsAfter ss reason ↔ Faults ts ss reason := by
  simp only [FaultsAfter, passes_iff, Faults, ← walks_merge_iff]
  constructor
  · rintro ⟨u, s, v, ⟨is, hw, hfaultless, hlive⟩, hs, hfault⟩
    exact ⟨is, s, ⟨v, hw.append_item hs⟩, hfaultless, hlive, hfault⟩
  · rintro ⟨is, s, ⟨v, hw⟩, hfaultless, hlive, hfault⟩
    obtain ⟨u, v, hw, hs⟩ := hw.exists_item
    exact ⟨u, s, v, ⟨is, hw, hfaultless, hlive⟩, hs, hfault⟩

theorem endsAfter_merge_iff : (merge ts).EndsAfter ss ↔ Completes ts ss := by
  simp only [EndsAfter, passes_iff, Completes, ← drains_merge_iff]
  constructor
  · rintro ⟨u, ⟨is, hw, hrest⟩, hend⟩
    exact ⟨is, hw.drains hend, hrest⟩
  · rintro ⟨is, hdrains, hrest⟩
    obtain ⟨u, hw, hend⟩ := hdrains.exists_walk
    exact ⟨u, ⟨is, hw, hrest⟩, hend⟩

/-- A round-robin with a faulted state has a first one. -/
theorem exists_faulted_iff :
    (∃ is s, RoundRobin ts is ∧ some s ∈ is ∧ s.isFaulted = true)
      ↔ ∃ ss reason, Faults ts ss reason := by
  constructor
  · rintro ⟨is, s, hbegins, hmem, hs⟩
    obtain ⟨u, hw⟩ := walks_merge_iff.2 hbegins
    obtain hfaultless | ⟨ss, reason, hfault⟩ := hw.faultless_or_faults
    · rw [State.isFaulted, hfaultless s hmem] at hs
      cases hs
    · exact ⟨ss, reason, faultsAfter_merge_iff.1 hfault⟩
  · rintro ⟨ss, reason, is, s, hbegins, -, -, hs⟩
    exact ⟨_, s, hbegins, List.mem_append_right _ (List.mem_singleton.2 rfl),
      by rw [State.isFaulted, hs]; rfl⟩

/-- The round-robin of streams that end is complete or has a fault. -/
theorem completes_or_faults {parts : List (List Item)} (h : List.Forall₂ Drains ts parts) :
    ∃ ss, Completes ts ss ∨ ∃ reason, Faults ts ss reason := by
  obtain ⟨is, hdrains, -⟩ := merge_drains h
  obtain ⟨u, hw, -⟩ := hdrains.exists_walk
  obtain hfaultless | ⟨ss, reason, hfault⟩ := hw.faultless_or_faults
  · exact ⟨_, .inl ⟨is, drains_merge_iff.1 hdrains, hfaultless, rfl⟩⟩
  · exact ⟨ss, .inr ⟨reason, faultsAfter_merge_iff.1 hfault⟩⟩

end Stream

/-! ## Streaming -/

/-- What pulls on results find, one after the other: rows and faults. -/
inductive Results.Yields (vars : List Var) :
    Results → List (Except Fault Projection) → Results → Prop where
  | nil (r : Results) : Yields vars r [] r
  | state {r r' r'' : Results} {steps : Nat} {s : State} {found : List (Except Fault Projection)}
      (h : (r.next steps).value = .state s r') (rest : Yields vars r' found r'') :
      Yields vars r (.ok (s.project vars) :: found) r''
  | fault {r r' r'' : Results} {steps : Nat} {reason : Fault}
      {found : List (Except Fault Projection)} (h : (r.next steps).value = .fault reason r')
      (rest : Yields vars r' found r'') : Yields vars r (.error reason :: found) r''

/-- A pull finds the end. -/
def Results.Ended (r : Results) : Prop := ∃ steps r', (r.next steps).value = .ended r'

/-- The rows of successes, and the fault behind them. -/
def Query.outcomes (vars : List Var) (ss : List State) (fault : Option Fault) :
    List (Except Fault Projection) := (rowsOf vars ss).map .ok ++ fault.toList.map .error

namespace Results

open Goalbase.Stream Query

variable {vars : List Var} {t u : Stream} {s : State} {ss : List State} {reason : Fault}
  {r r' : Results} {found : List (Except Fault Projection)} {ts : List Stream}

theorem ended_none : Ended ⟨none⟩ := ⟨0, ⟨none⟩, rfl⟩

theorem Yields.of_none (h : Yields vars ⟨none⟩ found r) : found = [] ∧ r = ⟨none⟩ := by
  generalize hnone : (⟨none⟩ : Results) = start at h
  cases h with
  | nil r => exact ⟨rfl, rfl⟩
  | state h _ => rw [← hnone] at h; cases h
  | fault h _ => rw [← hnone] at h; cases h

/-- Pulls find successes in their order, and nothing behind a fault. -/
theorem Yields.sound (h : Yields vars ⟨some t⟩ found r) :
    (∃ ss u, Passes t ss u ∧ found = outcomes vars ss none ∧ r = ⟨some u⟩)
      ∨ ∃ ss reason, t.FaultsAfter ss reason ∧ found = outcomes vars ss (some reason)
        ∧ r = ⟨none⟩ := by
  generalize hstart : (⟨some t⟩ : Results) = start at h
  induction h generalizing t with
  | nil r => exact .inl ⟨[], t, .refl t, rfl, hstart.symm⟩
  | @state r r' r'' steps s found hs _ ih =>
    have hnext := next_sound steps t
    rw [hstart, hs] at hnext
    obtain ⟨u, rfl, hu⟩ := hnext
    obtain ⟨ss, v, hv, rfl, hr⟩ | ⟨ss, reason, hfault, rfl, hr⟩ := ih rfl
    · exact .inl ⟨s :: ss, v, hu.trans hv, rfl, hr⟩
    · exact .inr ⟨s :: ss, reason, hfault.trans hu, rfl, hr⟩
  | @fault r r' r'' steps reason found hs hrest _ =>
    have hnext := next_sound steps t
    rw [hstart, hs] at hnext
    obtain ⟨rfl, hfault⟩ := hnext
    obtain ⟨rfl, hr⟩ := hrest.of_none
    exact .inr ⟨[], reason, hfault, rfl, hr⟩

theorem yields_of_passes (vars : List Var) (h : Passes t ss u) :
    ∃ v, Yields vars ⟨some t⟩ (outcomes vars ss none) ⟨some v⟩ ∧ Passes v [] u := by
  induction ss generalizing t with
  | nil => exact ⟨t, .nil _, h⟩
  | cons s ss ih =>
    obtain ⟨v, hv, n, hn⟩ := h.exists_next
    obtain ⟨w, hw, hrest⟩ := ih hv
    exact ⟨w, .state (hn n (Nat.le_refl n)) hw, hrest⟩

theorem Yields.append {found' : List (Except Fault Projection)} {r'' : Results}
    (h : Yields vars r found r') (h' : Yields vars r' found' r'') :
    Yields vars r (found ++ found') r'' := by
  induction h with
  | nil r => exact h'
  | state hs _ ih => exact .state hs (ih h')
  | fault hs _ ih => exact .fault hs (ih h')

theorem yields_of_faultsAfter (vars : List Var) (h : t.FaultsAfter ss reason) :
    Yields vars ⟨some t⟩ (outcomes vars ss (some reason)) ⟨none⟩ := by
  obtain ⟨u, s, w, hu, hs, hfault⟩ := h
  obtain ⟨v, hyields, hv⟩ := yields_of_passes vars hu
  obtain ⟨n, hn⟩ := FaultsAfter.exists_next ⟨u, s, w, hv, hs, hfault⟩
  have hall := hyields.append (.fault (hn n (Nat.le_refl n)) (.nil _))
  rwa [outcomes, Option.toList_none, List.map_nil, List.append_nil] at hall

/-- Pulls find the successes of the round-robin in their order, then its first fault. -/
theorem yields_merge_iff : (∃ r, Yields vars ⟨some (merge ts)⟩ found r) ↔
    ∃ ss, (Succeeds ts ss ∧ found = outcomes vars ss none)
      ∨ ∃ reason, Faults ts ss reason ∧ found = outcomes vars ss (some reason) := by
  constructor
  · rintro ⟨r, h⟩
    obtain ⟨ss, u, hu, hfound, -⟩ | ⟨ss, reason, hfault, hfound, -⟩ := h.sound
    · exact ⟨ss, .inl ⟨passes_merge_iff.1 ⟨u, hu⟩, hfound⟩⟩
    · exact ⟨ss, .inr ⟨reason, faultsAfter_merge_iff.1 hfault, hfound⟩⟩
  · rintro ⟨ss, ⟨hss, rfl⟩ | ⟨reason, hfault, rfl⟩⟩
    · obtain ⟨u, hu⟩ := passes_merge_iff.2 hss
      obtain ⟨v, hv, -⟩ := yields_of_passes vars hu
      exact ⟨_, hv⟩
    · exact ⟨_, yields_of_faultsAfter vars (faultsAfter_merge_iff.2 hfault)⟩

/-- Pulls find the end behind all successes, or behind the first fault. -/
theorem yields_merge_ended_iff : (∃ r, Yields vars ⟨some (merge ts)⟩ found r ∧ r.Ended) ↔
    ∃ ss, (Completes ts ss ∧ found = outcomes vars ss none)
      ∨ ∃ reason, Faults ts ss reason ∧ found = outcomes vars ss (some reason) := by
  constructor
  · rintro ⟨r, h, steps, r', hend⟩
    obtain ⟨ss, u, hu, hfound, rfl⟩ | ⟨ss, reason, hfault, hfound, -⟩ := h.sound
    · have hnext := next_sound steps u
      rw [hend] at hnext
      have hends := hnext.2.trans hu
      rw [List.append_nil] at hends
      exact ⟨ss, .inl ⟨endsAfter_merge_iff.1 hends, hfound⟩⟩
    · exact ⟨ss, .inr ⟨reason, faultsAfter_merge_iff.1 hfault, hfound⟩⟩
  · rintro ⟨ss, ⟨hss, rfl⟩ | ⟨reason, hfault, rfl⟩⟩
    · obtain ⟨u, hu, hend⟩ := endsAfter_merge_iff.2 hss
      obtain ⟨v, hyields, hv⟩ := yields_of_passes vars hu
      obtain ⟨n, hn⟩ := EndsAfter.exists_next ⟨u, hv, hend⟩
      exact ⟨_, hyields, n, _, hn n (Nat.le_refl n)⟩
    · exact ⟨_, yields_of_faultsAfter vars (faultsAfter_merge_iff.2 hfault), ended_none⟩

end Results

/-! ## Selecting -/

/-- The engine with another limit on the rows of a selection. -/
def Engine.withLimit (e : Engine) (limit : Option Nat) : Engine :=
  { e with config := { e.config with selectLimit := limit } }

namespace Query

open Goalbase.Stream
open Goalbase.Tree (ReadsInTurn FirstUnreadable)

variable {vars : List Var} {ts : List Stream} {limit : Option Nat} {ss : List State}
  {reason : Fault} {q : Query} {e : Engine}

/-- From some bound on the steps on, this is what is selected. -/
def SelectsTo (q : Query) (e : Engine) (vars : List Var)
    (answer : Except EngineError (List Projection)) : Prop :=
  ∃ bound, ∀ steps, bound ≤ steps → (q.select e steps vars).result = answer.map .rows

/-- What is selected and streamed is what the round-robin of the streams has. -/
structure SelectsFrom (q : Query) (e : Engine) (vars : List Var) (ts : List Stream) : Prop where
  /-- Without a limit there is an error where there is a fault. -/
  fails_iff : (∃ cause, q.SelectsTo (e.withLimit none) vars (.error cause))
    ↔ ∃ is s, RoundRobin ts is ∧ some s ∈ is ∧ s.isFaulted = true
  /-- The error is the first fault. -/
  error_iff (cause : EngineError) : q.SelectsTo (e.withLimit none) vars (.error cause)
    ↔ ∃ ss reason, Faults ts ss reason ∧ cause = .fault reason
  /-- Without a fault and a limit all successes are selected, in the order of the rounds. -/
  rows_iff (rows : List Projection) : q.SelectsTo (e.withLimit none) vars (.ok rows)
    ↔ ∃ ss, Completes ts ss ∧ rows = rowsOf vars ss
  /-- A limit cuts off what comes behind so many successes, a fault too. -/
  limited {ss : List State} (h : Succeeds ts ss) :
    q.SelectsTo (e.withLimit (some ss.length)) vars (.ok (rowsOf vars ss))
  /-- A limit that is not reached before the first fault makes no difference. -/
  unlimited {n : Nat} (h : ∀ ss, Succeeds ts ss → ss.length ≠ n) (steps : Nat) :
    (q.select (e.withLimit (some n)) steps vars).result
      = (q.select (e.withLimit none) steps vars).result
  /-- What is selected within some bound is selected within all larger ones. -/
  settled {limit : Option Nat} {steps : Nat} {answer : Except EngineError (List Projection)}
    (h : (q.select (e.withLimit limit) steps vars).result = answer.map .rows) :
    q.SelectsTo (e.withLimit limit) vars answer
  /-- The same rows are streamed in the same order, then the fault, and nothing behind it. -/
  streamed : ∃ r, (q.results e).result = .ok r
    ∧ (∀ found, (∃ r', r.Yields vars found r') ↔
      ∃ ss, (Succeeds ts ss ∧ found = outcomes vars ss none)
        ∨ ∃ reason, Faults ts ss reason ∧ found = outcomes vars ss (some reason))
    ∧ ∀ found, (∃ r', r.Yields vars found r' ∧ r'.Ended) ↔
      ∃ ss, (Completes ts ss ∧ found = outcomes vars ss none)
        ∨ ∃ reason, Faults ts ss reason ∧ found = outcomes vars ss (some reason)

def Selection.result : Selection → Except EngineError Selection
  | .fault reason => .error (.fault reason)
  | found => .ok found

/-- What is selected from streams, with a bound on the steps. -/
def selected (vars : List Var) (limit : Option Nat) (steps : Nat) (ts : List Stream) : Selection :=
  (collect steps vars [] [] limit steps ⟨some (.merge ts)⟩).value

theorem selected_fault (vars : List Var) (h : Faults ts ss reason)
    (hlimit : ∀ n ∈ limit, ss.length < n) :
    ∃ bound, ∀ steps, bound ≤ steps → selected vars limit steps ts = .fault reason := by
  obtain ⟨bound, hbound⟩ := collect_fault vars (faultsAfter_merge_iff.2 h) hlimit
  exact ⟨max bound (ss.length + 1), fun steps hsteps => hbound steps (by omega) steps (by omega)⟩

theorem selected_all (vars : List Var) (h : Completes ts ss) (hlimit : ∀ n ∈ limit, ss.length < n) :
    ∃ bound, ∀ steps, bound ≤ steps → selected vars limit steps ts = .rows (rowsOf vars ss) := by
  obtain ⟨bound, hbound⟩ := collect_all vars (endsAfter_merge_iff.2 h) hlimit
  exact ⟨max bound (ss.length + 1), fun steps hsteps => hbound steps (by omega) steps (by omega)⟩

theorem selected_rows (vars : List Var) (h : Succeeds ts ss) :
    ∃ bound, ∀ steps, bound ≤ steps →
      selected vars (some ss.length) steps ts = .rows (rowsOf vars ss) := by
  obtain ⟨u, hu⟩ := passes_merge_iff.2 h
  obtain ⟨bound, hbound⟩ := collect_rows vars hu
  exact ⟨max bound ss.length, fun steps hsteps => hbound steps (by omega) steps (by omega)⟩

theorem of_selected_fault {steps : Nat} (h : selected vars limit steps ts = .fault reason) :
    ∃ ss, (∀ n ∈ limit, ss.length < n) ∧ Faults ts ss reason := by
  have hsound := collect_sound steps vars [] limit steps (.merge ts)
  rw [← selected, h] at hsound
  obtain ⟨ss, hlimit, hfault⟩ := hsound
  exact ⟨ss, hlimit, faultsAfter_merge_iff.1 hfault⟩

theorem of_selected_rows {steps : Nat} {rows : List Projection}
    (h : selected vars limit steps ts = .rows rows) :
    ∃ ss, rows = rowsOf vars ss ∧ ((limit = some ss.length ∧ Succeeds ts ss)
      ∨ (∀ n ∈ limit, ss.length < n) ∧ Completes ts ss) := by
  have hsound := collect_sound steps vars [] limit steps (.merge ts)
  rw [← selected, h] at hsound
  obtain ⟨ss, hrows, ⟨hreached, hss⟩ | ⟨hlimit, hend⟩⟩ := hsound
  · exact ⟨ss, hrows, .inl ⟨hreached, passes_merge_iff.1 hss⟩⟩
  · exact ⟨ss, hrows, .inr ⟨hlimit, endsAfter_merge_iff.1 hend⟩⟩

theorem selected_unlimited {n : Nat} (h : ∀ ss, Succeeds ts ss → ss.length ≠ n) (steps : Nat) :
    selected vars (some n) steps ts = selected vars none steps ts :=
  collect_unlimited (fun ss u hu => h ss (passes_merge_iff.1 ⟨u, hu⟩)) steps steps vars []

theorem Selection.result_eq_error {found : Selection} {cause : EngineError} :
    found.result = .error cause ↔ ∃ reason, found = .fault reason ∧ cause = .fault reason := by
  cases found <;> simp [result, eq_comm]

theorem Selection.result_eq_rows {found : Selection} {rows : List Projection} :
    found.result = .ok (.rows rows) ↔ found = .rows rows := by
  cases found <;> simp [result]

/-! ## Queries whose trees can be converted -/

variable {goals : List Goal} {m : Nat}

theorem result_runAll (h : ReadsInTurn e.registry e.serial q.trees goals m) :
    (runAll e q.trees).result = .ok (streams goals)
      ∧ (runAll e q.trees).engine.config = e.config := by
  obtain ⟨goals', k, hgoals, hresult, hengine⟩ | ⟨done, cause, k, hfirst, -⟩ :=
    runAll_cases e q.trees
  · obtain ⟨rfl, -⟩ := h.deterministic hgoals
    exact ⟨hresult, by rw [hengine]⟩
  · exact absurd h hfirst.not_reads

theorem result_results (h : ReadsInTurn e.registry e.serial q.trees goals m) :
    (q.results e).result = .ok ⟨some (.merge (streams goals))⟩ := by
  rw [results, Reply.andThen, (result_runAll h).1]
  rfl

theorem result_select (h : ReadsInTurn e.registry e.serial q.trees goals m) (steps : Nat)
    (vars : List Var) : (q.select e steps vars).result
      = (selected vars e.config.selectLimit steps (streams goals)).result := by
  obtain ⟨hresult, hconfig⟩ := result_runAll h
  rw [select, Reply.andThen, result_results h]
  dsimp only
  rw [engine_results, hconfig, selected]
  cases (collect steps vars [] [] e.config.selectLimit steps
    ⟨some (.merge (streams goals))⟩).value <;> rfl

theorem SelectsTo.of_selected (h : ReadsInTurn e.registry e.serial q.trees goals m)
    {found : Selection} {answer : Except EngineError (List Projection)}
    (hs : ∃ bound, ∀ steps, bound ≤ steps → selected vars limit steps (streams goals) = found)
    (hfound : found.result = answer.map .rows) : q.SelectsTo (e.withLimit limit) vars answer := by
  obtain ⟨bound, hbound⟩ := hs
  refine ⟨bound, fun steps hsteps => ?_⟩
  rw [result_select (e := e.withLimit limit) h, ← hfound, ← hbound steps hsteps]
  rfl

theorem SelectsTo.exists_selected (h : ReadsInTurn e.registry e.serial q.trees goals m)
    {answer : Except EngineError (List Projection)}
    (hs : q.SelectsTo (e.withLimit limit) vars answer) :
    ∃ steps, (selected vars limit steps (streams goals)).result = answer.map .rows := by
  obtain ⟨bound, hbound⟩ := hs
  exact ⟨bound, (result_select (e := e.withLimit limit) h bound vars).symm.trans
    (hbound bound (Nat.le_refl bound))⟩

/-- An answer that was found within some bound is found within all larger ones. -/
theorem SelectsTo.of_result (h : ReadsInTurn e.registry e.serial q.trees goals m) {steps : Nat}
    {answer : Except EngineError (List Projection)}
    (hanswer : (selected vars limit steps (streams goals)).result = answer.map .rows) :
    q.SelectsTo (e.withLimit limit) vars answer := by
  cases answer with
  | error cause =>
    obtain ⟨reason, hselected, rfl⟩ := Selection.result_eq_error.1 hanswer
    obtain ⟨ss, hlimit, hfaults⟩ := of_selected_fault hselected
    exact .of_selected h (selected_fault vars hfaults hlimit) rfl
  | ok rows =>
    obtain ⟨ss, rfl, ⟨rfl, hss⟩ | ⟨hlimit, hss⟩⟩ :=
      of_selected_rows (Selection.result_eq_rows.1 hanswer)
    · exact .of_selected h (selected_rows vars hss) rfl
    · exact .of_selected h (selected_all vars hss hlimit) rfl

theorem selectsTo_error_iff (h : ReadsInTurn e.registry e.serial q.trees goals m)
    {cause : EngineError} : q.SelectsTo (e.withLimit none) vars (.error cause)
      ↔ ∃ ss reason, Faults (streams goals) ss reason ∧ cause = .fault reason := by
  constructor
  · intro hs
    obtain ⟨steps, hanswer⟩ := hs.exists_selected h
    obtain ⟨reason, hselected, rfl⟩ := Selection.result_eq_error.1 hanswer
    obtain ⟨ss, -, hfaults⟩ := of_selected_fault hselected
    exact ⟨ss, reason, hfaults, rfl⟩
  · rintro ⟨ss, reason, hfaults, rfl⟩
    exact .of_selected h (selected_fault vars hfaults nofun) rfl

theorem selectsFrom (h : ReadsInTurn e.registry e.serial q.trees goals m) (vars : List Var) :
    q.SelectsFrom e vars (streams goals) where
  fails_iff := by
    rw [exists_faulted_iff]
    constructor
    · rintro ⟨cause, hs⟩
      obtain ⟨ss, reason, hfaults, -⟩ := (selectsTo_error_iff h).1 hs
      exact ⟨ss, reason, hfaults⟩
    · rintro ⟨ss, reason, hfaults⟩
      exact ⟨_, (selectsTo_error_iff h).2 ⟨ss, reason, hfaults, rfl⟩⟩
  error_iff _ := selectsTo_error_iff h
  rows_iff rows := by
    constructor
    · intro hs
      obtain ⟨steps, hanswer⟩ := hs.exists_selected h
      obtain ⟨ss, rfl, ⟨hreached, -⟩ | ⟨-, hss⟩⟩ :=
        of_selected_rows (Selection.result_eq_rows.1 hanswer)
      · cases hreached
      · exact ⟨ss, hss, rfl⟩
    · rintro ⟨ss, hss, rfl⟩
      exact .of_selected h (selected_all vars hss nofun) rfl
  limited hss := .of_selected h (selected_rows vars hss) rfl
  unlimited {n} hn steps := by
    rw [result_select (e := e.withLimit (some n)) h, result_select (e := e.withLimit none) h]
    exact congrArg Selection.result (selected_unlimited hn steps)
  settled {limit steps _} hanswer := by
    rw [result_select (e := e.withLimit limit) h] at hanswer
    exact .of_result h hanswer
  streamed := ⟨_, result_results h, fun _ => Results.yields_merge_iff,
    fun _ => Results.yields_merge_ended_iff⟩

/-- The round-robin of goals without delay is complete or has a fault. -/
theorem streams_completes_or_faults (h : ∀ g ∈ goals, g.Built fun _ => True) :
    ∃ ss, Completes (streams goals) ss ∨ ∃ reason, Faults (streams goals) ss reason := by
  obtain ⟨parts, hparts⟩ := Goal.exists_parts (R := fun g is => g.Yields .empty is) fun g hg => by
    obtain ⟨is, his, -⟩ := (h g hg).yields .empty
    exact ⟨is, his⟩
  exact completes_or_faults (List.forall₂_map_left_iff.2 hparts)

/-- Either some tree cannot be converted, and the error of the first such tree is the answer. Or
what is selected and streamed is what the round-robin of the trees' streams has; and if no goal
delays, that comes to an end. -/
theorem select_complete (q : Query) (e : Engine) (vars : List Var) :
    (∃ done cause, FirstUnreadable e.registry e.serial q.trees done cause
      ∧ (q.results e).result = .error (.conversion cause)
      ∧ ∀ steps, (q.select e steps vars).result = .error (.conversion cause))
    ∨ ∃ goals m, ReadsInTurn e.registry e.serial q.trees goals m
      ∧ q.SelectsFrom e vars (streams goals)
      ∧ ((∀ g ∈ goals, g.Built fun _ => True) →
        ∃ ss, Completes (streams goals) ss ∨ ∃ reason, Faults (streams goals) ss reason) := by
  obtain ⟨goals, m, hgoals, -⟩ | ⟨done, cause, m, hfirst, hresult, -⟩ := runAll_cases e q.trees
  · exact .inr ⟨goals, m, hgoals, selectsFrom hgoals vars, streams_completes_or_faults⟩
  · have hresults : (q.results e).result = .error (.conversion cause) := by
      rw [results, Reply.andThen, hresult]
    refine .inl ⟨done, cause, hfirst, hresults, fun steps => ?_⟩
    rw [select, Reply.andThen, hresults]

/-- A fault of the first tree behind one success of each: a limit of two rows does not get there. -/
theorem select_complete_behind_limit :
    let b : Var := .any "b"
    let first : Tree := .and [.constraint "cmp" [.var b, .lit (.word 6), .lit (.word (-1))] none,
      .or [.equal (.var b) (.lit (.word 5)), .equal (.var b) (.lit (.string "five"))]]
    let q : Query := ⟨[first, .and []]⟩
    let e : Engine := .inMemory [] 0
    q.SelectsTo (e.withLimit none) [b] (.error (.fault (.incomparable (.string "five") (.word 6))))
      ∧ ∃ rows, rows.length = 2 ∧ q.SelectsTo (e.withLimit (some 2)) [b] (.ok rows) := by
  intro b first q e
  have hfault : (q.select e 30 [b]).result
    = .error (.fault (.incomparable (.string "five") (.word 6))) := rfl
  have hrows : ∃ rows, (q.select (e.withLimit (some 2)) 30 [b]).result = .ok (.rows rows)
    ∧ rows.length = 2 := ⟨_, rfl, rfl⟩
  obtain ⟨rows, hrows, hlength⟩ := hrows
  obtain ⟨_, _, -, -, hrefused⟩ | ⟨_, _, -, hfrom, -⟩ := q.select_complete e [b]
  · exact nomatch (hrefused 30).symm.trans hfault
  · exact ⟨hfrom.settled hfault, rows, hlength, hfrom.settled hrows⟩

end Query

end Goalbase

import Goalbase.Proofs.Converting
import Goalbase.Query

/-!
# Goalbase.Proofs.Running

What running trees does to an engine.

A run takes a serial number for itself and converts its tree with those that follow, so trees that
are run one after the other stand for goals as `ReadsInTurn` says, up to the first that cannot be
converted (`FirstUnreadable`). `Engine.runWith_cases` and `Query.runAll_cases` say all that a run
and the runs of a query do: which streams or which error they give and what the engine is
afterwards.
-/

namespace Goalbase

namespace Tree

variable {registry : Registry} {n m k : Nat}

/-- The goals of trees that are run in turn, each run taking a serial number for itself. -/
inductive ReadsInTurn (registry : Registry) : Nat → List Tree → List Goal → Nat → Prop where
  | nil (n : Nat) : ReadsInTurn registry n [] [] n
  | cons {n m k : Nat} {t : Tree} {rest : List Tree} {g : Goal} {goals : List Goal}
      (h : Reads registry (n + 1) t g m) (hrest : ReadsInTurn registry m rest goals k) :
      ReadsInTurn registry n (t :: rest) (g :: goals) k

/-- The error of the first tree, run in turn, that cannot be converted; `done` come before it. -/
def FirstUnreadable (registry : Registry) (n : Nat) (ts done : List Tree)
    (cause : ConversionError) : Prop :=
  ∃ t rest goals m, ts = done ++ t :: rest ∧ ReadsInTurn registry n done goals m
    ∧ t.convert? registry (m + 1) = .error cause

/-- How many of the trees are run: all, or those up to the first that cannot be converted. -/
def attempted (registry : Registry) : Nat → List Tree → Nat
  | _, [] => 0
  | n, t :: rest =>
    match t.convert? registry (n + 1) with
    | .error _ => 1
    | .ok (_, m) => attempted registry m rest + 1

theorem convert?_eq_ok {t : Tree} {g : Goal} :
    t.convert? registry n = .ok (g, m) ↔ Reads registry n t g m := by
  rw [convert?_eq]
  exact toGoal?_eq_ok

theorem ReadsInTurn.length_eq {ts : List Tree} {goals : List Goal}
    (h : ReadsInTurn registry n ts goals m) : goals.length = ts.length := by
  induction h with
  | nil _ => rfl
  | cons _ _ ih => rw [List.length_cons, List.length_cons, ih]

theorem ReadsInTurn.attempted_append {ts : List Tree} {goals : List Goal}
    (h : ReadsInTurn registry n ts goals m) (us : List Tree) :
    attempted registry n (ts ++ us) = ts.length + attempted registry m us := by
  induction h with
  | nil n => rw [List.nil_append, List.length_nil, Nat.zero_add]
  | cons h _ ih =>
    rw [List.cons_append, attempted, convert?_eq_ok.2 h]
    dsimp only
    rw [ih, List.length_cons]
    omega

/-- All trees are run when each can be converted. -/
theorem ReadsInTurn.attempted_eq {ts : List Tree} {goals : List Goal}
    (h : ReadsInTurn registry n ts goals m) : attempted registry n ts = ts.length := by
  have hsplit := h.attempted_append []
  rwa [List.append_nil, attempted, Nat.add_zero] at hsplit

/-- The first tree that cannot be converted is the last that is run. -/
theorem FirstUnreadable.attempted_eq {ts done : List Tree} {cause : ConversionError}
    (h : FirstUnreadable registry n ts done cause) : attempted registry n ts = done.length + 1 := by
  obtain ⟨t, rest, goals, m, rfl, hdone, ht⟩ := h
  rw [hdone.attempted_append, attempted, ht]

/-- The trees determine which goals they stand for. -/
theorem ReadsInTurn.deterministic {ts : List Tree} {goals goals' : List Goal}
    (h : ReadsInTurn registry n ts goals m) (h' : ReadsInTurn registry n ts goals' k) :
    goals = goals' ∧ m = k := by
  induction h generalizing goals' with
  | nil _ =>
    cases h'
    exact ⟨rfl, rfl⟩
  | cons h _ ih =>
    cases h' with
    | cons h' hrest' =>
      rw [← convert?_eq_ok] at h h'
      rw [h] at h'
      cases h'
      obtain ⟨rfl, rfl⟩ := ih hrest'
      exact ⟨rfl, rfl⟩

/-- The trees behind the first ones stand for goals too. -/
theorem ReadsInTurn.rest {ts us : List Tree} {goals goals' : List Goal}
    (h : ReadsInTurn registry n (ts ++ us) goals m) (h' : ReadsInTurn registry n ts goals' k) :
    ∃ behind, ReadsInTurn registry k us behind m := by
  induction h' generalizing goals with
  | nil n => exact ⟨goals, h⟩
  | cons ht _ ih =>
    cases h with
    | cons hu hrest =>
      rw [← convert?_eq_ok] at ht hu
      rw [ht] at hu
      cases hu
      exact ih hrest

theorem FirstUnreadable.not_reads {ts done : List Tree} {cause : ConversionError}
    {goals : List Goal} (h : FirstUnreadable registry n ts done cause) :
    ¬ReadsInTurn registry n ts goals m := by
  intro hall
  obtain ⟨t, rest, goals', k, rfl, hdone, ht⟩ := h
  obtain ⟨behind, hbehind⟩ := hall.rest hdone
  cases hbehind with
  | cons hread _ =>
    rw [convert?_eq_ok.2 hread] at ht
    cases ht

end Tree

/-- So many runs whose trees could be converted, and so many whose trees could not. -/
def Counters.ran (c : Counters) (converted failed : Nat) : Counters :=
  { c with
    queriesRun := c.queriesRun + .ofNat (converted + failed)
    conversions := c.conversions + .ofNat converted
    conversionFailures := c.conversionFailures + .ofNat failed }

theorem Counters.ran_zero (c : Counters) : c.ran 0 0 = c := by
  simp [ran]

theorem Counters.ran_ran (c : Counters) (a b a' b' : Nat) :
    (c.ran a b).ran a' b' = c.ran (a + a') (b + b') := by
  have hsum : a + b + (a' + b') = a + a' + (b + b') := by omega
  simp only [ran, UInt64.add_assoc, ← UInt64.ofNat_add, hsum]

namespace Engine

open Goalbase.Tree (Reads ReadsInTurn FirstUnreadable)

/-- A conversion counts and takes the serial numbers of the constraints that it rebuilt, or counts
as failed. -/
theorem convertAs_cases (e : Engine) (queryId : String) (t : Tree) :
    (∃ g m, Reads e.registry e.serial t g m
      ∧ (e.convertAs queryId t).result = .ok g
      ∧ (e.convertAs queryId t).engine
        = { e with counters := e.counters.countConversion, serial := m })
    ∨ ∃ cause, t.convert? e.registry e.serial = .error cause
      ∧ (e.convertAs queryId t).result = .error (.conversion cause)
      ∧ (e.convertAs queryId t).engine = { e with counters := e.counters.countFailure } := by
  rw [convertAs]
  cases h : t.convert? e.registry e.serial with
  | error cause => exact .inr ⟨cause, rfl, rfl, rfl⟩
  | ok converted =>
    obtain ⟨g, m⟩ := converted
    exact .inl ⟨g, m, Tree.convert?_eq_ok.1 h, rfl, rfl⟩

/-- A run counts, and gives the stream of the goal that its tree stands for or an error. -/
theorem runWith_cases (e : Engine) (t : Tree) (s : State) :
    (∃ g m, Reads e.registry (e.serial + 1) t g m
      ∧ (e.runWith t s).result = .ok (g.apply s).value
      ∧ (e.runWith t s).engine = { e with counters := e.counters.ran 1 0, serial := m })
    ∨ ∃ cause, t.convert? e.registry (e.serial + 1) = .error cause
      ∧ (e.runWith t s).result = .error (.conversion cause)
      ∧ (e.runWith t s).engine
        = { e with counters := e.counters.ran 0 1, serial := e.serial + 1 } := by
  obtain ⟨g, m, hg, hresult, hengine⟩ | ⟨cause, hcause, hresult, hengine⟩ :=
    convertAs_cases { e.nextQuery with counters := e.counters.countQuery } e.queryId t
  · refine .inl ⟨g, m, hg, ?_, ?_⟩
    · simp only [runWith, hresult]
    · simp only [runWith, hengine]
      simp [nextQuery, Counters.ran, Counters.countQuery, Counters.countConversion]
  · refine .inr ⟨cause, hcause, ?_, ?_⟩
    · simp only [runWith, hresult]
    · simp only [runWith, hengine]
      simp [nextQuery, Counters.ran, Counters.countQuery, Counters.countFailure]

end Engine

namespace Query

open Goalbase.Tree (ReadsInTurn FirstUnreadable)

/-- The streams of goals, each on the state that binds nothing. -/
def streams (goals : List Goal) : List Stream := goals.map fun g => (g.apply .empty).value

/-- All trees are run and give their streams, or they are run up to the first that cannot be
converted and give its error. -/
theorem runAll_cases (e : Engine) (ts : List Tree) :
    (∃ goals m, ReadsInTurn e.registry e.serial ts goals m
      ∧ (runAll e ts).result = .ok (streams goals)
      ∧ (runAll e ts).engine = { e with counters := e.counters.ran ts.length 0, serial := m })
    ∨ ∃ done cause m, FirstUnreadable e.registry e.serial ts done cause
      ∧ (runAll e ts).result = .error (.conversion cause)
      ∧ (runAll e ts).engine
        = { e with counters := e.counters.ran done.length 1, serial := m } := by
  induction ts generalizing e with
  | nil =>
    refine .inl ⟨[], e.serial, .nil _, rfl, ?_⟩
    rw [List.length_nil, Counters.ran_zero]
    rfl
  | cons t rest ih =>
    rw [runAll, Reply.andThen]
    obtain ⟨g, m, hg, hresult, hengine⟩ | ⟨cause, hcause, hresult, hengine⟩ :=
      e.runWith_cases t .empty
    · rw [Engine.run, hresult, hengine]
      dsimp only
      rw [Reply.andThen]
      obtain ⟨goals, k, hgoals, hresult, hengine⟩ | ⟨done, cause, k, hdone, hresult, hengine⟩ :=
        ih { e with counters := e.counters.ran 1 0, serial := m }
      · rw [hresult, hengine]
        refine .inl ⟨g :: goals, k, .cons hg hgoals, rfl, ?_⟩
        rw [Counters.ran_ran, List.length_cons, Nat.add_comm 1]
        rfl
      · rw [hresult, hengine]
        obtain ⟨u, rest', goals, l, rfl, hgoals, hu⟩ := hdone
        have hfirst : FirstUnreadable e.registry e.serial (t :: (done ++ u :: rest')) (t :: done)
          cause := ⟨u, rest', g :: goals, l, rfl, .cons hg hgoals, hu⟩
        refine .inr ⟨t :: done, cause, k, hfirst, rfl, ?_⟩
        rw [Counters.ran_ran, List.length_cons, Nat.add_comm 1]
    · rw [Engine.run, hresult, hengine]
      exact .inr ⟨[], cause, e.serial + 1, ⟨t, rest, [], e.serial, rfl, .nil _, hcause⟩, rfl, rfl⟩

/-- What the runs of a query leave of the engine. -/
theorem engine_runAll (e : Engine) (ts : List Tree) :
    ∃ converted failed m, converted + failed = Tree.attempted e.registry e.serial ts
      ∧ (runAll e ts).engine
        = { e with counters := e.counters.ran converted failed, serial := m } := by
  obtain ⟨goals, m, hgoals, -, hengine⟩ | ⟨done, cause, m, hdone, -, hengine⟩ := runAll_cases e ts
  · exact ⟨ts.length, 0, m, hgoals.attempted_eq.symm, hengine⟩
  · exact ⟨done.length, 1, m, hdone.attempted_eq.symm, hengine⟩

theorem engine_results (q : Query) (e : Engine) :
    (q.results e).engine = (runAll e q.trees).engine := by
  rw [results, Reply.andThen]
  cases (runAll e q.trees).result <;> rfl

theorem engine_select (q : Query) (e : Engine) (steps : Nat) (vars : List Var) :
    (q.select e steps vars).engine = (runAll e q.trees).engine := by
  rw [← engine_results, select, Reply.andThen]
  cases (q.results e).result with
  | error _ => rfl
  | ok r =>
    dsimp only
    cases (collect steps vars [] [] (q.results e).engine.config.selectLimit steps r).value <;> rfl

end Query

end Goalbase

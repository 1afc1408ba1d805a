import Goalbase.Stream
import Mathlib.Data.List.Perm.Basic

/-!
# Goalbase.Proofs.Draining

Streams that end, and what merging makes of them.

`Drains t is` says that pulls on `t` give the items `is`, one after the other, and then the end.
`Merged parts out` says that `out` is made of the items of all parts, where each part keeps its
order. A merge of streams that drain drains to a merge of their items (`merge_drains`), and so does
a bound stream: its parts are the items that pass by the goal and, for every live state of the
source, the items of the goal on it (`bound_runs`).
-/

namespace Goalbase

/-- A list put together from parts, the first item of some part at a time. -/
inductive Merged {α : Type} : List (List α) → List α → Prop where
  | nil : Merged [] []
  | drop {parts : List (List α)} {out : List α} (h : Merged parts out) : Merged ([] :: parts) out
  | take {parts : List (List α)} {a : α} {part out : List α} (h : Merged (part :: parts) out) :
      Merged ((a :: part) :: parts) (a :: out)
  | perm {parts parts' : List (List α)} {out : List α} (hp : parts.Perm parts')
      (h : Merged parts out) : Merged parts' out

namespace Merged

variable {α : Type} {parts : List (List α)} {out : List α}

theorem perm_flatten (h : Merged parts out) : out.Perm parts.flatten := by
  induction h with
  | nil => exact .nil
  | drop _ ih => exact ih
  | take _ ih => exact ih.cons _
  | perm hp _ ih => exact ih.trans hp.flatten

/-- Every part keeps its order. -/
theorem sublist (h : Merged parts out) : ∀ part ∈ parts, part.Sublist out := by
  induction h with
  | nil => intro part hpart; cases hpart
  | drop _ ih =>
    intro part hpart
    cases List.mem_cons.1 hpart with
    | inl e => rw [e]; exact List.nil_sublist _
    | inr hpart => exact ih part hpart
  | take _ ih =>
    intro part hpart
    cases List.mem_cons.1 hpart with
    | inl e => rw [e]; exact (ih _ List.mem_cons_self).cons_cons _
    | inr hpart => exact (ih part (List.mem_cons_of_mem _ hpart)).cons _
  | perm hp _ ih => exact fun part hpart => ih part (hp.mem_iff.2 hpart)

theorem rotate {part : List α} (h : Merged (parts ++ [part]) out) : Merged (part :: parts) out :=
  .perm (List.perm_append_singleton part parts) h

theorem drop_middle {rest : List (List α)} (h : Merged (parts ++ rest) out) :
    Merged (parts ++ [] :: rest) out := .perm List.perm_middle.symm h.drop

theorem take_middle {rest : List (List α)} {a : α} {part : List α}
    (h : Merged (parts ++ part :: rest) out) : Merged (parts ++ (a :: part) :: rest) (a :: out) :=
  .perm List.perm_middle.symm (take (.perm List.perm_middle h))

end Merged

namespace Stream

/-! ## Pulling to the end -/

/-- Pulls give the items and then the end. -/
inductive Drains : Stream → List Item → Prop where
  | ended {t u : Stream} {n : Nat} (h : (t.pull n).value = .ended u) : Drains t []
  | item {t u : Stream} {n : Nat} {i : Item} {is : List Item}
      (h : (t.pull n).value = .answer i u) (rest : Drains u is) : Drains t (i :: is)

/-- As many steps lead through the items to the end. -/
inductive Runs : Nat → Stream → List Item → Prop where
  | ended {t : Stream} (h : t.step.value = .ended) : Runs 0 t []
  | item {t u : Stream} {n : Nat} {i : Item} {is : List Item}
      (h : t.step.value = .item i u) (rest : Runs n u is) : Runs (n + 1) t (i :: is)
  | silent {t u : Stream} {n : Nat} {is : List Item}
      (h : t.step.value = .silent u) (rest : Runs n u is) : Runs (n + 1) t is

theorem value_pullOnto {α : Type} (keep : Item → Option α) (before : List Observation)
    (steps : Nat) (t : Stream) :
    (pullOnto keep before steps t).value = (pullOnto keep [] steps t).value := by
  induction steps generalizing before t with
  | zero => rfl
  | succ n ih =>
    simp only [pullOnto]
    cases t.step.value with
    | ended => rfl
    | silent u =>
      simp only
      rw [ih, ih ([] ++ t.step.trace)]
    | item i u =>
      cases hk : keep i with
      | some a => simp only [hk]
      | none =>
        simp only [hk]
        rw [ih, ih ([] ++ t.step.trace)]

theorem value_pull_succ (n : Nat) (t : Stream) :
    (t.pull (n + 1)).value = match t.step.value with
      | .ended => .ended t
      | .silent u => (u.pull n).value
      | .item i u => .answer i u := by
  simp only [pull, pullWith, pullOnto]
  cases t.step.value with
  | ended => rfl
  | silent u => exact value_pullOnto _ _ n u
  | item i u => rfl

variable {t u : Stream} {i : Item} {is : List Item}

theorem drains_of_ended (h : t.step.value = .ended) : Drains t [] :=
  .ended (n := 1) (by rw [value_pull_succ, h])

theorem drains_of_item (h : t.step.value = .item i u) (rest : Drains u is) : Drains t (i :: is) :=
  .item (n := 1) (by rw [value_pull_succ, h]) rest

theorem drains_of_silent (h : t.step.value = .silent u) (rest : Drains u is) : Drains t is := by
  cases rest with
  | @ended _ v n hp => exact .ended (n := n + 1) (by rw [value_pull_succ, h]; exact hp)
  | @item _ v n j js hp rest =>
    exact .item (n := n + 1) (by rw [value_pull_succ, h]; exact hp) rest

theorem runs_of_pull_ended {n : Nat} (h : (t.pull n).value = .ended u) : ∃ k, Runs k t [] := by
  induction n generalizing t with
  | zero => cases h
  | succ n ih =>
    rw [value_pull_succ] at h
    cases hs : t.step.value with
    | ended => exact ⟨0, .ended hs⟩
    | silent v =>
      rw [hs] at h
      obtain ⟨k, hk⟩ := ih h
      exact ⟨k + 1, .silent hs hk⟩
    | item j v =>
      rw [hs] at h
      cases h

theorem runs_of_pull_answer {n k : Nat} (h : (t.pull n).value = .answer i u)
    (rest : Runs k u is) : ∃ m, Runs m t (i :: is) := by
  induction n generalizing t with
  | zero => cases h
  | succ n ih =>
    rw [value_pull_succ] at h
    cases hs : t.step.value with
    | ended =>
      rw [hs] at h
      cases h
    | silent v =>
      rw [hs] at h
      obtain ⟨m, hm⟩ := ih h
      exact ⟨m + 1, .silent hs hm⟩
    | item j v =>
      rw [hs] at h
      cases h
      exact ⟨k + 1, .item hs rest⟩

theorem Drains.runs (h : Drains t is) : ∃ n, Runs n t is := by
  induction h with
  | ended h => exact runs_of_pull_ended h
  | item h _ ih =>
    obtain ⟨k, hk⟩ := ih
    exact runs_of_pull_answer h hk

theorem Runs.deterministic {n m : Nat} {js : List Item} (h : Runs n t is) (h' : Runs m t js) :
    is = js := by
  induction h generalizing m js with
  | ended h =>
    cases h' with
    | ended _ => rfl
    | item h' _ => rw [h] at h'; cases h'
    | silent h' _ => rw [h] at h'; cases h'
  | item h _ ih =>
    cases h' with
    | ended h' => rw [h] at h'; cases h'
    | item h' rest' =>
      rw [h] at h'
      cases h'
      rw [ih rest']
    | silent h' _ => rw [h] at h'; cases h'
  | silent h _ ih =>
    cases h' with
    | ended h' => rw [h] at h'; cases h'
    | item h' _ => rw [h] at h'; cases h'
    | silent h' rest' =>
      rw [h] at h'
      cases h'
      exact ih rest'

/-- A stream drains to one list of items only. -/
theorem Drains.deterministic {js : List Item} (h : Drains t is) (h' : Drains t js) : is = js := by
  obtain ⟨n, hn⟩ := h.runs
  obtain ⟨m, hm⟩ := h'.runs
  exact hn.deterministic hm

/-! ## Merging -/

/-- All streams of a queue run to the end, in so many turns. -/
inductive RunAll : Nat → List Stream → List (List Item) → Prop where
  | nil : RunAll 0 [] []
  | cons {t : Stream} {is : List Item} {n m : Nat} {queue : List Stream}
      {parts : List (List Item)} (h : Runs n t is) (rest : RunAll m queue parts) :
      RunAll (n + 1 + m) (t :: queue) (is :: parts)

theorem RunAll.push {n m : Nat} {queue : List Stream} {parts : List (List Item)}
    (h : RunAll m queue parts) (ht : Runs n t is) :
    RunAll (m + (n + 1)) (queue ++ [t]) (parts ++ [is]) := by
  induction h with
  | nil =>
    have := RunAll.nil.cons ht
    rwa [Nat.add_comm] at this
  | cons h _ ih =>
    have := ih.cons h
    rwa [← Nat.add_assoc] at this

theorem runAll_of_drains {queue : List Stream} {parts : List (List Item)}
    (h : List.Forall₂ Drains queue parts) : ∃ m, RunAll m queue parts := by
  induction h with
  | nil => exact ⟨0, .nil⟩
  | cons h _ ih =>
    obtain ⟨n, hn⟩ := h.runs
    obtain ⟨m, hm⟩ := ih
    exact ⟨n + 1 + m, .cons hn hm⟩

/-- The merge of a queue takes its items in turn, by induction on the turns that are left. -/
theorem merge_runAll {m : Nat} {queue : List Stream} {parts : List (List Item)}
    (h : RunAll m queue parts) : ∃ out, Drains (.merge queue) out ∧ Merged parts out := by
  induction m using Nat.strongRecOn generalizing queue parts with
  | ind m ih =>
    cases h with
    | nil => exact ⟨[], drains_of_ended rfl, .nil⟩
    | @cons t is n m queue parts ht hrest =>
      have hstep : (step (.merge (t :: queue))).value = mergeStep queue t.step.value := rfl
      cases ht with
      | ended hs =>
        rw [hs] at hstep
        obtain ⟨out, hd, hm⟩ := ih m (by omega) hrest
        exact ⟨out, drains_of_silent hstep hd, hm.drop⟩
      | @item _ u n i is hs hu =>
        rw [hs] at hstep
        obtain ⟨out, hd, hm⟩ := ih (m + (n + 1)) (by omega) (hrest.push hu)
        exact ⟨i :: out, drains_of_item hstep hd, hm.rotate.take⟩
      | @silent _ u n _ hs hu =>
        rw [hs] at hstep
        obtain ⟨out, hd, hm⟩ := ih (n + 1 + m) (by omega) (hrest.cons hu)
        exact ⟨out, drains_of_silent hstep hd, hm⟩

theorem merge_drains {queue : List Stream} {parts : List (List Item)}
    (h : List.Forall₂ Drains queue parts) :
    ∃ out, Drains (.merge queue) out ∧ Merged parts out := by
  obtain ⟨m, hm⟩ := runAll_of_drains h
  exact merge_runAll hm

/-! ## Binding -/

/-- The items that pass by a goal: markers and states with a fault. -/
def passing (is : List Item) : List Item := is.filter fun i => (success? i).isNone

/-- The states without a fault. -/
def live (is : List Item) : List State := is.filterMap success?

section Passing

variable {s : State} {is : List Item}

theorem success?_live (h : s.isFaulted = false) : success? (some s) = some s :=
  if_neg (by rw [h]; exact Bool.false_ne_true)

theorem success?_faulted (h : s.isFaulted = true) : success? (some s) = none := if_pos h

theorem passing_live (h : s.isFaulted = false) : passing (some s :: is) = passing is := by
  simp only [passing, List.filter_cons, success?_live h, Option.isNone_some, Bool.false_eq_true,
    if_false]

theorem passing_faulted (h : s.isFaulted = true) :
    passing (some s :: is) = some s :: passing is := by
  simp only [passing, List.filter_cons, success?_faulted h, Option.isNone_none, if_true]

theorem live_live (h : s.isFaulted = false) : live (some s :: is) = s :: live is := by
  simp only [live, List.filterMap_cons, success?_live h]

theorem live_faulted (h : s.isFaulted = true) : live (some s :: is) = live is := by
  simp only [live, List.filterMap_cons, success?_faulted h]

end Passing

section Bound

variable {goal : Goal} {source : Stream} {queue : List Stream} {tail : List (List Item)}

/-- Without a source, a bound stream merges the streams that were started. -/
theorem bound_ended {m : Nat} {parts : List (List Item)} (h : RunAll m queue parts)
    (sourceNext : Bool) :
    ∃ out, Drains (.bound none goal queue sourceNext) out ∧ Merged parts out := by
  induction m using Nat.strongRecOn generalizing queue parts sourceNext with
  | ind m ih =>
    cases h with
    | nil => exact ⟨[], drains_of_ended rfl, .nil⟩
    | @cons t is n m queue parts ht hrest =>
      have hstep : (step (.bound none goal (t :: queue) sourceNext)).value
          = startedStep none goal queue t.step.value := by
        cases sourceNext <;> rfl
      cases ht with
      | ended hs =>
        rw [hs] at hstep
        obtain ⟨out, hd, hm⟩ := ih m (by omega) hrest true
        exact ⟨out, drains_of_silent hstep hd, hm.drop⟩
      | @item _ u n i is hs hu =>
        rw [hs] at hstep
        obtain ⟨out, hd, hm⟩ := ih (m + (n + 1)) (by omega) (hrest.push hu) true
        exact ⟨i :: out, drains_of_item hstep hd, hm.rotate.take⟩
      | @silent _ u n _ hs hu =>
        rw [hs] at hstep
        obtain ⟨out, hd, hm⟩ := ih (n + 1 + m) (by omega) (hrest.cons hu) false
        exact ⟨out, drains_of_silent hstep hd, hm⟩

/-- What holds whenever it is the source's turn holds at every turn, by induction on the steps that
the streams started have left. -/
theorem bound_turns
    (h : ∀ {m queue parts sourceNext}, sourceNext = true ∨ queue = [] → RunAll m queue parts →
      ∃ out, Drains (.bound (some source) goal queue sourceNext) out ∧ Merged (parts ++ tail) out)
    {m : Nat} {parts : List (List Item)} (hq : RunAll m queue parts) (sourceNext : Bool) :
    ∃ out, Drains (.bound (some source) goal queue sourceNext) out
      ∧ Merged (parts ++ tail) out := by
  induction m using Nat.strongRecOn generalizing queue parts sourceNext with
  | ind m ih =>
    cases sourceNext with
    | true => exact h (.inl rfl) hq
    | false =>
      cases hq with
      | nil => exact h (.inr rfl) .nil
      | @cons t is n m queue parts ht hrest =>
        have hstep : (step (.bound (some source) goal (t :: queue) false)).value
            = startedStep (some source) goal queue t.step.value := rfl
        cases ht with
        | ended hs =>
          rw [hs] at hstep
          obtain ⟨out, hd, hm⟩ := h (.inl rfl) hrest
          exact ⟨out, drains_of_silent hstep hd, hm.drop⟩
        | @item _ u n i is hs hu =>
          rw [hs] at hstep
          obtain ⟨out, hd, hm⟩ := h (.inl rfl) (hrest.push hu)
          rw [List.append_assoc] at hm
          exact ⟨i :: out, drains_of_item hstep hd, .take (.perm List.perm_middle hm)⟩
        | @silent _ u n _ hs hu =>
          rw [hs] at hstep
          obtain ⟨out, hd, hm⟩ := ih (n + 1 + m) (by omega) (hrest.cons hu) false
          exact ⟨out, drains_of_silent hstep hd, hm⟩

theorem step_source (goal : Goal) (source : Stream) {sourceNext : Bool}
    (h : sourceNext = true ∨ queue = []) :
    (step (.bound (some source) goal queue sourceNext)).value
      = (sourceStep goal queue sourceNext source.step.value).value := by
  cases queue with
  | nil => rfl
  | cons t queue =>
    cases h with
    | inl h => rw [h]; rfl
    | inr h => cases h

/-- A bound stream drains to a merge of what passes by the goal, of what is left of the streams
started, and of what the goal gives on the live states of the source. -/
theorem bound_runs {f : State → List Item} (hf : ∀ s, Drains (goal.apply s).value (f s))
    {k : Nat} {is : List Item} (hsource : Runs k source is) {m : Nat} {parts : List (List Item)}
    (hq : RunAll m queue parts) (sourceNext : Bool) :
    ∃ out, Drains (.bound (some source) goal queue sourceNext) out
      ∧ Merged (parts ++ passing is :: (live is).map f) out := by
  induction hsource generalizing m queue parts sourceNext with
  | @ended source hs =>
    refine bound_turns (fun {m queue parts sourceNext} hturn hq => ?_) hq sourceNext
    have hstep := step_source goal source hturn
    rw [hs] at hstep
    obtain ⟨out, hd, hm⟩ := bound_ended hq false
    refine ⟨out, drains_of_silent hstep hd, ?_⟩
    rw [← List.append_nil parts] at hm
    exact hm.drop_middle
  | @item source u k i is hs hu ih =>
    refine bound_turns (fun {m queue parts sourceNext} hturn hq => ?_) hq sourceNext
    have hstep := step_source goal source hturn
    rw [hs] at hstep
    cases i with
    | none =>
      obtain ⟨out, hd, hm⟩ := ih hq false
      exact ⟨none :: out, drains_of_item hstep hd, hm.take_middle⟩
    | some s =>
      cases hfault : s.isFaulted with
      | true =>
        rw [passing_faulted hfault, live_faulted hfault]
        simp only [sourceStep, hfault, if_true] at hstep
        obtain ⟨out, hd, hm⟩ := ih hq false
        exact ⟨some s :: out, drains_of_item hstep hd, hm.take_middle⟩
      | false =>
        rw [passing_live hfault, live_live hfault]
        simp only [sourceStep, hfault, Bool.false_eq_true, if_false] at hstep
        -- the stream just started joins the queue behind the others
        obtain ⟨n, hn⟩ := (hf s).runs
        obtain ⟨out, hd, hm⟩ := ih (hq.push hn) false
        refine ⟨out, drains_of_silent hstep hd, .perm ?_ hm⟩
        rw [List.append_assoc]
        exact .append_left parts (.swap _ _ _)
  | @silent source u k is hs hu ih =>
    refine bound_turns (fun {m queue parts sourceNext} hturn hq => ?_) hq sourceNext
    have hstep := step_source goal source hturn
    rw [hs] at hstep
    obtain ⟨out, hd, hm⟩ := ih hq sourceNext
    exact ⟨out, drains_of_silent hstep hd, hm⟩

end Bound

end Stream

theorem success?_eq_some {i : Item} {t : State} :
    Stream.success? i = some t ↔ i = some t ∧ t.isFaulted = false := by
  cases i with
  | none =>
    constructor
    · intro h
      cases h
    · rintro ⟨h, -⟩
      cases h
  | some u =>
    cases hu : u.isFaulted with
    | true =>
      rw [Stream.success?_faulted hu]
      constructor
      · intro h
        cases h
      · rintro ⟨h, ht⟩
        cases h
        rw [hu] at ht
        cases ht
    | false =>
      rw [Stream.success?_live hu]
      constructor
      · intro h
        cases h
        exact ⟨rfl, hu⟩
      · exact fun h => h.1

end Goalbase

import Goalbase.Proofs.Pulling
import Mathlib.Data.List.Nodup

/-!
# Goalbase.Proofs.Turns

Whose turn it is in a bound stream.

A `Ledger` is a bound stream that keeps count: of the items its source has given, and for every
stream started, of the source's item that started it and the items it has given. So every item has
an `Origin` that stays the same while the queue rotates. `Turn` lists all that can happen until one
part has given an item or ended. What is due before a turn is given by it or due after it
(`Turn.given_or_due`), nothing else becomes due (`Turn.due_before`), and what was given is due no
longer (`Turn.not_due`).
-/

namespace Goalbase

namespace Stream

variable {t u v src : Stream} {i : Item} {n m : Nat} {goal : Goal} {queue : List Stream}
  {source : Option Stream} {turn : Bool}

/-! ## Steps of the parts -/

theorem sourceStep_passing (h : success? i = none) :
    (sourceStep goal queue turn (.item i t)).value
      = .item i (.bound (some t) goal queue false) := by
  cases i with
  | none => rfl
  | some s =>
    cases hs : s.isFaulted with
    | true => simp only [sourceStep, hs, if_true, Traced.value_pure]
    | false => rw [success?_live hs] at h; cases h

theorem sourceStep_live {s : State} (h : s.isFaulted = false) :
    (sourceStep goal queue turn (.item (some s) t)).value
      = .silent (.bound (some t) goal (queue ++ [(goal.apply s).value]) false) := by
  simp only [sourceStep, h, Bool.false_eq_true, if_false, Traced.value_map]

theorem step_started (h : turn = false ∨ source = none) :
    (step (.bound source goal (t :: queue) turn)).value
      = startedStep source goal queue t.step.value := by
  rcases h with rfl | rfl
  · cases source <;> rfl
  · cases turn <;> rfl

theorem Quiet.bound_source (h : turn = true ∨ queue = []) (hq : Quiet n t u) :
    Quiet n (.bound (some t) goal queue turn) (.bound (some u) goal queue turn) := by
  induction hq with
  | refl t => exact .refl _
  | step hs _ ih => exact .step (by rw [step_source goal _ h, hs]; rfl) ih

theorem Quiet.bound_started (h : turn = false ∨ source = none) (hq : Quiet n t u) :
    ∃ turn', (turn' = false ∨ source = none) ∧
      Quiet n (.bound source goal (t :: queue) turn) (.bound source goal (u :: queue) turn') := by
  induction hq generalizing turn with
  | refl t => exact ⟨turn, h, .refl _⟩
  | step hs _ ih =>
    obtain ⟨turn', h', hq'⟩ := ih (.inl rfl : false = false ∨ source = none)
    exact ⟨turn', h', .step (by rw [step_started h, hs]; rfl) hq'⟩

section Source

variable (h : turn = true ∨ queue = [])

include h

theorem gives_source_passing (hg : src.Gives i u) (hi : success? i = none) :
    (bound (some src) goal queue turn).Gives i (.bound (some u) goal queue false) := by
  obtain ⟨n, v, hq, hv⟩ := gives_iff_quiet.1 hg
  refine gives_iff_quiet.2 ⟨n, _, hq.bound_source h, ?_⟩
  rw [step_source goal v h, hv, sourceStep_passing hi]

theorem quiet_source_live {s : State} (hg : src.Gives (some s) u) (hs : s.isFaulted = false) :
    ∃ n, Quiet (n + 1) (.bound (some src) goal queue turn)
      (.bound (some u) goal (queue ++ [(goal.apply s).value]) false) := by
  obtain ⟨n, v, hq, hv⟩ := gives_iff_quiet.1 hg
  refine ⟨n, (hq.bound_source h).trans (.single ?_)⟩
  rw [step_source goal v h, hv, sourceStep_live hs]

theorem quiet_source_ended (he : src.Ends) :
    ∃ n, Quiet (n + 1) (.bound (some src) goal queue turn) (.bound none goal queue false) := by
  obtain ⟨n, v, hq, hv⟩ := ends_iff_quiet.1 he
  refine ⟨n, (hq.bound_source h).trans (.single ?_)⟩
  rw [step_source goal v h, hv]
  rfl

end Source

section Started

variable (h : turn = false ∨ source = none)

include h

theorem gives_started (hg : t.Gives i u) :
    (bound source goal (t :: queue) turn).Gives i (.bound source goal (queue ++ [u]) true) := by
  obtain ⟨n, v, hq, hv⟩ := gives_iff_quiet.1 hg
  obtain ⟨turn', h', hq'⟩ := hq.bound_started h
  refine gives_iff_quiet.2 ⟨n, _, hq', ?_⟩
  rw [step_started h', hv]
  rfl

theorem quiet_started_ended (he : t.Ends) :
    ∃ n, Quiet (n + 1) (.bound source goal (t :: queue) turn) (.bound source goal queue true) := by
  obtain ⟨n, v, hq, hv⟩ := ends_iff_quiet.1 he
  obtain ⟨turn', h', hq'⟩ := hq.bound_started h
  refine ⟨n, hq'.trans (.single ?_)⟩
  rw [step_started h', hv]
  rfl

end Started

/-! ## Turns -/

/-- A stream started from the `start`-th item of a source, and how many items it has given. -/
structure Entry where
  start : Nat
  given : Nat
  stream : Stream

/-- A bound stream and how many items its parts have given. -/
structure Ledger where
  source : Option (Nat × Stream)
  started : List Entry
  sourceNext : Bool

/-- Where an item comes from: it is the `n`-th item of the source, or the `k`-th one of the stream
that the `n`-th item of the source started. -/
inductive Origin where
  | source (n : Nat)
  | started (n k : Nat)

namespace Ledger

def stream (goal : Goal) (L : Ledger) : Stream :=
  .bound (L.source.map Prod.snd) goal (L.started.map Entry.stream) L.sourceNext

/-- One part is pulled: it gives an item, or there is nothing to hand on. -/
inductive Turn (goal : Goal) : Ledger → Option (Origin × Item) → Ledger → Prop where
  | pass {n : Nat} {src u : Stream} {i : Item} {q : List Entry} {turn : Bool}
      (hturn : turn = true ∨ q = []) (h : src.Gives i u) (hi : success? i = none) :
      Turn goal ⟨some (n, src), q, turn⟩ (some (.source n, i)) ⟨some (n + 1, u), q, false⟩
  | start {n : Nat} {src u : Stream} {s : State} {q : List Entry} {turn : Bool}
      (hturn : turn = true ∨ q = []) (h : src.Gives (some s) u) (hs : s.isFaulted = false) :
      Turn goal ⟨some (n, src), q, turn⟩ none
        ⟨some (n + 1, u), q ++ [⟨n, 0, (goal.apply s).value⟩], false⟩
  | close {n : Nat} {src : Stream} {q : List Entry} {turn : Bool}
      (hturn : turn = true ∨ q = []) (h : src.Ends) :
      Turn goal ⟨some (n, src), q, turn⟩ none ⟨none, q, false⟩
  | give {source : Option (Nat × Stream)} {n k : Nat} {t u : Stream} {i : Item} {q : List Entry}
      {turn : Bool} (hturn : turn = false ∨ source = none) (h : t.Gives i u) :
      Turn goal ⟨source, ⟨n, k, t⟩ :: q, turn⟩ (some (.started n k, i))
        ⟨source, q ++ [⟨n, k + 1, u⟩], true⟩
  | drop {source : Option (Nat × Stream)} {n k : Nat} {t : Stream} {q : List Entry}
      {turn : Bool} (hturn : turn = false ∨ source = none) (h : t.Ends) :
      Turn goal ⟨source, ⟨n, k, t⟩ :: q, turn⟩ none ⟨source, q, true⟩

/-- The item of the origin is still to come. -/
inductive Due (goal : Goal) (L : Ledger) : Origin → Item → Prop where
  | source {n d k : Nat} {src : Stream} {i : Item} (hL : L.source = some (n, src))
      (hk : k = n + d) (h : src.Nth d i) (hi : success? i = none) : Due goal L (.source k) i
  | started {e : Entry} {d n k : Nat} {i : Item} (he : e ∈ L.started) (hn : n = e.start)
      (hk : k = e.given + d) (h : e.stream.Nth d i) : Due goal L (.started n k) i
  | awaited {n d l k : Nat} {src : Stream} {s : State} {i : Item} (hL : L.source = some (n, src))
      (hl : l = n + d) (h : src.Nth d (some s)) (hs : s.isFaulted = false)
      (h' : (goal.apply s).value.Nth k i) : Due goal L (.started l k) i

/-- No two streams have the same start, and the source has gone beyond all of them. -/
structure Tidy (L : Ledger) : Prop where
  nodup : (L.started.map Entry.start).Nodup
  beyond : ∀ {n src}, L.source = some (n, src) → ∀ e ∈ L.started, e.start < n

/-- Pulls on all parts return. -/
structure Prompt (L : Ledger) : Prop where
  source : ∀ {n src}, L.source = some (n, src) → src.Responsive
  started : ∀ e ∈ L.started, e.stream.Responsive

/-- Every part has ended. -/
def Finished (L : Ledger) : Prop := L.source = none ∧ L.started = []

variable {goal : Goal} {L L' L'' : Ledger} {o : Origin} {i j : Item} {a b : Option (Origin × Item)}

namespace Turn

theorem deterministic (h : Turn goal L a L') (h' : Turn goal L b L'') : a = b ∧ L' = L'' := by
  cases h with
  | pass hturn hg hi =>
    cases h' with
    | pass _ hg' _ =>
      obtain ⟨rfl, rfl⟩ := hg.deterministic hg'
      exact ⟨rfl, rfl⟩
    | start _ hg' hs' =>
      obtain ⟨rfl, -⟩ := hg.deterministic hg'
      rw [success?_live hs'] at hi
      cases hi
    | close _ he' => exact absurd he' hg.not_ends
    | give hturn' _ => simp_all
    | drop hturn' _ => simp_all
  | start hturn hg hs =>
    cases h' with
    | pass _ hg' hi' =>
      obtain ⟨rfl, -⟩ := hg.deterministic hg'
      rw [success?_live hs] at hi'
      cases hi'
    | start _ hg' _ =>
      obtain ⟨hst, rfl⟩ := hg.deterministic hg'
      cases hst
      exact ⟨rfl, rfl⟩
    | close _ he' => exact absurd he' hg.not_ends
    | give hturn' _ => simp_all
    | drop hturn' _ => simp_all
  | close hturn he =>
    cases h' with
    | pass _ hg' _ => exact absurd he hg'.not_ends
    | start _ hg' _ => exact absurd he hg'.not_ends
    | close _ _ => exact ⟨rfl, rfl⟩
    | give hturn' _ => simp_all
    | drop hturn' _ => simp_all
  | give hturn hg =>
    cases h' with
    | pass hturn' _ _ => simp_all
    | start hturn' _ _ => simp_all
    | close hturn' _ => simp_all
    | give _ hg' =>
      obtain ⟨rfl, rfl⟩ := hg.deterministic hg'
      exact ⟨rfl, rfl⟩
    | drop _ he' => exact absurd he' hg.not_ends
  | drop hturn he =>
    cases h' with
    | pass hturn' _ _ => simp_all
    | start hturn' _ _ => simp_all
    | close hturn' _ => simp_all
    | give _ hg' => exact absurd he hg'.not_ends
    | drop _ _ => exact ⟨rfl, rfl⟩

theorem gives (h : Turn goal L (some (o, i)) L') : (L.stream goal).Gives i (L'.stream goal) := by
  cases h with
  | pass hturn hg hi =>
    exact gives_source_passing (hturn.imp_right (congrArg (List.map Entry.stream))) hg hi
  | give hturn hg =>
    simp only [stream, List.map_append]
    exact gives_started (hturn.imp_right (congrArg (Option.map Prod.snd))) hg

theorem silent (h : Turn goal L none L') :
    ∃ n, Quiet (n + 1) (L.stream goal) (L'.stream goal) := by
  cases h with
  | start hturn hg hs =>
    simp only [stream, List.map_append]
    exact quiet_source_live (hturn.imp_right (congrArg (List.map Entry.stream))) hg hs
  | close hturn he =>
    exact quiet_source_ended (hturn.imp_right (congrArg (List.map Entry.stream))) he
  | drop hturn he =>
    exact quiet_started_ended (hturn.imp_right (congrArg (Option.map Prod.snd))) he

theorem prompt (h : Turn goal L a L') (hgoal : ∀ s, (goal.apply s).value.Responsive)
    (hL : L.Prompt) : L'.Prompt := by
  cases h with
  | pass _ hg _ =>
    refine ⟨fun {n src} hsrc => ?_, hL.started⟩
    cases hsrc
    exact (hL.source rfl).rest hg
  | start _ hg _ =>
    refine ⟨fun {n src} hsrc => ?_, fun e he => ?_⟩
    · cases hsrc
      exact (hL.source rfl).rest hg
    · rcases List.mem_append.1 he with he | he
      · exact hL.started e he
      · rw [List.mem_singleton.1 he]
        exact hgoal _
  | close _ _ => exact ⟨fun hsrc => (by cases hsrc), hL.started⟩
  | give _ hg =>
    refine ⟨hL.source, fun e he => ?_⟩
    rcases List.mem_append.1 he with he | he
    · exact hL.started e (List.mem_cons_of_mem _ he)
    · rw [List.mem_singleton.1 he]
      exact (hL.started _ List.mem_cons_self).rest hg
  | drop _ _ => exact ⟨hL.source, fun e he => hL.started e (List.mem_cons_of_mem _ he)⟩

theorem tidy (h : Turn goal L a L') (hL : L.Tidy) : L'.Tidy := by
  cases h with
  | pass _ _ _ =>
    refine ⟨hL.nodup, fun {n src} hsrc e he => ?_⟩
    cases hsrc
    exact Nat.lt_succ_of_lt (hL.beyond rfl e he)
  | @start n src u s q turn _ _ _ =>
    have hlt : ∀ e ∈ q, e.start < n := fun e he => hL.beyond rfl e he
    refine ⟨?_, fun {n' src'} hsrc e he => ?_⟩
    · simp only [List.map_append, List.map_cons, List.map_nil]
      refine List.nodup_append.2 ⟨hL.nodup, List.nodup_singleton n, fun a ha b hb => ?_⟩
      obtain ⟨e, he, rfl⟩ := List.mem_map.1 ha
      rw [List.mem_singleton.1 hb]
      exact Nat.ne_of_lt (hlt e he)
    · cases hsrc
      rcases List.mem_append.1 he with he | he
      · exact Nat.lt_succ_of_lt (hlt e he)
      · rw [List.mem_singleton.1 he]
        exact Nat.lt_succ_self n
  | close _ _ => exact ⟨hL.nodup, fun hsrc => (by cases hsrc)⟩
  | @give source n k t u i q turn _ _ =>
    refine ⟨?_, fun hsrc e he => ?_⟩
    · simp only [List.map_append, List.map_cons, List.map_nil]
      exact (List.perm_append_singleton n (q.map Entry.start)).nodup_iff.2 hL.nodup
    · rcases List.mem_append.1 he with he | he
      · exact hL.beyond hsrc e (List.mem_cons_of_mem _ he)
      · rw [List.mem_singleton.1 he]
        exact hL.beyond hsrc ⟨n, k, t⟩ List.mem_cons_self
  | drop _ _ =>
    exact ⟨(List.nodup_cons.1 hL.nodup).2,
      fun hsrc e he => hL.beyond hsrc e (List.mem_cons_of_mem _ he)⟩

/-! ## What is due before and after a turn -/

theorem due_given (h : Turn goal L (some (o, i)) L') : Due goal L o i := by
  cases h with
  | pass _ hg hi => exact .source rfl rfl (.zero hg) hi
  | give _ hg => exact .started List.mem_cons_self rfl rfl (.zero hg)

/-- A turn makes nothing due that was not. -/
theorem due_before (h : Turn goal L a L') (hd : Due goal L' o i) : Due goal L o i := by
  cases h with
  | pass _ hg _ =>
    cases hd with
    | source hL hk hn hi =>
      cases hL
      exact .source rfl (by omega) (.succ hg hn) hi
    | started he hn hk h => exact .started he hn hk h
    | awaited hL hl hn hs h =>
      cases hL
      exact .awaited rfl (by omega) (.succ hg hn) hs h
  | start _ hg hs =>
    cases hd with
    | source hL hk hn hi =>
      cases hL
      exact .source rfl (by omega) (.succ hg hn) hi
    | started he hn hk h =>
      rcases List.mem_append.1 he with he | he
      · exact .started he hn hk h
      · cases List.mem_singleton.1 he
        rw [Nat.zero_add] at hk
        rw [hk]
        exact .awaited rfl (hn.trans (Nat.add_zero _).symm) (.zero hg) hs h
    | awaited hL hl hn hs' h =>
      cases hL
      exact .awaited rfl (by omega) (.succ hg hn) hs' h
  | close _ _ =>
    cases hd with
    | source hL _ _ _ => cases hL
    | started he hn hk h => exact .started he hn hk h
    | awaited hL _ _ _ _ => cases hL
  | give _ hg =>
    cases hd with
    | source hL hk hn hi => exact .source hL hk hn hi
    | started he hn hk h =>
      rcases List.mem_append.1 he with he | he
      · exact .started (List.mem_cons_of_mem _ he) hn hk h
      · cases List.mem_singleton.1 he
        exact .started List.mem_cons_self hn (by rw [hk]; exact Nat.add_right_comm _ 1 _)
          (.succ hg h)
    | awaited hL hl hn hs h => exact .awaited hL hl hn hs h
  | drop _ _ =>
    cases hd with
    | source hL hk hn hi => exact .source hL hk hn hi
    | started he hn hk h => exact .started (List.mem_cons_of_mem _ he) hn hk h
    | awaited hL hl hn hs h => exact .awaited hL hl hn hs h

/-- What was due is given or stays due. -/
theorem given_or_due (h : Turn goal L a L') (hd : Due goal L o i) :
    a = some (o, i) ∨ Due goal L' o i := by
  cases h with
  | pass _ hg hi' =>
    cases hd with
    | @source n d k src i hL hk hn hi =>
      cases hL
      cases hn with
      | zero hg' =>
        obtain ⟨rfl, -⟩ := hg.deterministic hg'
        rw [hk]
        exact .inl rfl
      | succ hg' hn =>
        obtain ⟨-, rfl⟩ := hg.deterministic hg'
        exact .inr (.source rfl (by omega) hn hi)
    | started he hn hk h => exact .inr (.started he hn hk h)
    | awaited hL hl hn hs h =>
      cases hL
      cases hn with
      | zero hg' =>
        obtain ⟨rfl, -⟩ := hg.deterministic hg'
        rw [success?_live hs] at hi'
        cases hi'
      | succ hg' hn =>
        obtain ⟨-, rfl⟩ := hg.deterministic hg'
        exact .inr (.awaited rfl (by omega) hn hs h)
  | start _ hg hs =>
    cases hd with
    | source hL hk hn hi =>
      cases hL
      cases hn with
      | zero hg' =>
        obtain ⟨rfl, -⟩ := hg.deterministic hg'
        rw [success?_live hs] at hi
        cases hi
      | succ hg' hn =>
        obtain ⟨-, rfl⟩ := hg.deterministic hg'
        exact .inr (.source rfl (by omega) hn hi)
    | started he hn hk h => exact .inr (.started (List.mem_append_left _ he) hn hk h)
    | awaited hL hl hn hs h =>
      cases hL
      cases hn with
      | zero hg' =>
        obtain ⟨e, -⟩ := hg.deterministic hg'
        cases e
        exact .inr (.started (List.mem_append_right _ List.mem_cons_self) hl
          (Nat.zero_add _).symm h)
      | succ hg' hn =>
        obtain ⟨-, rfl⟩ := hg.deterministic hg'
        exact .inr (.awaited rfl (by omega) hn hs h)
  | close _ he =>
    cases hd with
    | source hL _ hn _ => cases hL; exact absurd he hn.not_ends
    | started he hn hk h => exact .inr (.started he hn hk h)
    | awaited hL _ hn _ _ => cases hL; exact absurd he hn.not_ends
  | give _ hg =>
    cases hd with
    | source hL hk hn hi => exact .inr (.source hL hk hn hi)
    | started he hn hk h =>
      rcases List.mem_cons.1 he with rfl | he
      · cases h with
        | zero hg' =>
          obtain ⟨rfl, -⟩ := hg.deterministic hg'
          rw [hn, hk]
          exact .inl rfl
        | succ hg' h =>
          obtain ⟨-, rfl⟩ := hg.deterministic hg'
          exact .inr (.started (List.mem_append_right _ List.mem_cons_self) hn
            (by simp only [hk]; omega) h)
      · exact .inr (.started (List.mem_append_left _ he) hn hk h)
    | awaited hL hl hn hs h => exact .inr (.awaited hL hl hn hs h)
  | drop _ hend =>
    cases hd with
    | source hL hk hn hi => exact .inr (.source hL hk hn hi)
    | started he hn hk h =>
      rcases List.mem_cons.1 he with rfl | he
      · exact absurd hend h.not_ends
      · exact .inr (.started he hn hk h)
    | awaited hL hl hn hs h => exact .inr (.awaited hL hl hn hs h)

/-- What is given is due no longer. -/
theorem not_due (h : Turn goal L (some (o, i)) L') (hL : L.Tidy) : ¬Due goal L' o j := by
  intro hd
  cases h with
  | pass _ _ _ =>
    cases hd with
    | source hsrc hk _ _ =>
      cases hsrc
      omega
  | @give source n k t u _ q turn _ _ =>
    have hq : n ∉ q.map Entry.start := (List.nodup_cons.1 hL.nodup).1
    cases hd with
    | started he hn hk _ =>
      rcases List.mem_append.1 he with he | he
      · exact hq (List.mem_map.2 ⟨_, he, hn.symm⟩)
      · cases List.mem_singleton.1 he
        dsimp only at hk
        omega
    | awaited hsrc hl _ _ _ =>
      have := hL.beyond hsrc ⟨n, k, t⟩ List.mem_cons_self
      simp only at this
      omega

end Turn

theorem Finished.ends (h : L.Finished) (goal : Goal) : (L.stream goal).Ends := by
  refine ends_of_ended ?_
  rw [stream, h.1, h.2]
  rfl

/-! ## There is always a turn -/

/-- While pulls on the parts return, it is the turn of one of them until all have ended. -/
theorem Prompt.exists_turn (hL : L.Prompt) (goal : Goal) :
    L.Finished ∨ ∃ a L', Turn goal L a L' := by
  obtain ⟨source, q, turn⟩ := L
  have hstarted : ∀ e q', q = e :: q' → turn = false ∨ source = none →
      ∃ a L', Turn goal ⟨source, q, turn⟩ a L' := by
    rintro e q' rfl hturn
    rcases (hL.started e List.mem_cons_self).returns with he | ⟨i, u, hg⟩
    · exact ⟨_, _, .drop hturn he⟩
    · exact ⟨_, _, .give hturn hg⟩
  have hsource : ∀ n src, source = some (n, src) → turn = true ∨ q = [] →
      ∃ a L', Turn goal ⟨source, q, turn⟩ a L' := by
    rintro n src rfl hturn
    rcases (hL.source rfl).returns with he | ⟨i, u, hg⟩
    · exact ⟨_, _, .close hturn he⟩
    · cases hi : success? i with
      | none => exact ⟨_, _, .pass hturn hg hi⟩
      | some s =>
        obtain ⟨rfl, hs⟩ := success?_eq_some.1 hi
        exact ⟨_, _, .start hturn hg hs⟩
  cases source with
  | none =>
    cases q with
    | nil => exact .inl ⟨rfl, rfl⟩
    | cons e q => exact .inr (hstarted e q rfl (.inr rfl))
  | some p =>
    obtain ⟨n, src⟩ := p
    cases q with
    | nil => exact .inr (hsource n src rfl (.inr rfl))
    | cons e q =>
      cases turn with
      | true => exact .inr (hsource n src rfl (.inl rfl))
      | false => exact .inr (hstarted e q rfl (.inl rfl))

end Ledger

end Stream

end Goalbase

import Goalbase.Proofs.Rounds

/-!
# Goalbase.Proofs.Calling

Which pulls a merge makes of its streams, and when.

A pull on a merge pulls the stream in front of its queue, and those behind it as long as there is no
item (`pull_merge`). `Calls` follows the queue with the place of every stream and the number of
items that were found of it, and `Pulls.exists_logged` says that pulls on a merge are made of such
calls. A stream that was called goes a whole round further back (`position_next`), so the queue
stays in the order of its positions and within one round (`InRound.behind`). Therefore the calls are
made round after round from left to right (`Calls.ascending`), none before those to its left
(`Calls.called_before`), and the calls of one place are consecutive pulls on its stream, none of
them after its end (`Calls.own`).
-/

namespace Goalbase

namespace Stream

variable {t u : Stream} {i : Item} {is : List Item} {os : List Observation} {n k : Nat}

/-! ## What pulls observe -/

theorem pullOnto_eq {α : Type} (keep : Item → Option α) (before : List Observation) (steps : Nat)
    (t : Stream) : pullOnto keep before steps t
      = ⟨before ++ (pullOnto keep [] steps t).trace, (pullOnto keep [] steps t).value⟩ := by
  induction steps generalizing before t with
  | zero => simp only [pullOnto, List.append_nil]
  | succ n ih =>
    simp only [pullOnto, List.nil_append]
    cases t.step.value with
    | ended => rfl
    | silent u =>
      simp only
      rw [ih, ih t.step.trace, List.append_assoc]
    | item i u =>
      simp only
      cases keep i with
      | some a => rfl
      | none =>
        simp only
        rw [ih, ih t.step.trace, List.append_assoc]

theorem pull_succ (n : Nat) (t : Stream) :
    t.pull (n + 1) = match t.step.value with
      | .ended => ⟨t.step.trace, .ended t⟩
      | .silent u => ⟨t.step.trace ++ (u.pull n).trace, (u.pull n).value⟩
      | .item i u => ⟨t.step.trace, .answer i u⟩ := by
  simp only [pull, pullWith, pullOnto, List.nil_append]
  cases t.step.value with
  | ended => rfl
  | silent u => exact pullOnto_eq _ _ _ _
  | item i u => rfl

/-- A pull on a merge pulls the stream in front: an item of it is the answer and sends it to the
back, and at its end the pull goes on with the streams behind it. -/
theorem pull_merge (t : Stream) (behind : List Stream) (n : Nat) :
    match (t.pull n).value with
    | .answer i u =>
      (merge (t :: behind)).pull n = ⟨(t.pull n).trace, .answer i (.merge (behind ++ [u]))⟩
    | .ended _ => ∃ m, (merge (t :: behind)).pull n
        = ⟨(t.pull n).trace ++ ((merge behind).pull m).trace, ((merge behind).pull m).value⟩
    | .unfinished u =>
      (merge (t :: behind)).pull n = ⟨(t.pull n).trace, .unfinished (.merge (u :: behind))⟩ := by
  induction n generalizing t with
  | zero => rfl
  | succ n ih =>
    have hstep : (merge (t :: behind)).step = t.step.map (mergeStep behind) := rfl
    rw [pull_succ n (merge _), hstep, pull_succ, Traced.value_map, Traced.trace_map]
    cases t.step.value with
    | ended => exact ⟨n, rfl⟩
    | item i u => rfl
    | silent u =>
      have ih := ih u
      simp only [mergeStep]
      cases hu : (u.pull n).value with
      | answer i v =>
        rw [hu] at ih
        rw [ih]
      | unfinished v =>
        rw [hu] at ih
        rw [ih]
      | ended v =>
        rw [hu] at ih
        obtain ⟨m, hm⟩ := ih
        exact ⟨m, by rw [hm, List.append_assoc]⟩

/-- Pulls one after the other, also after the end: what was observed, which items were found and
what is left, or `none` if the last pull did not return. -/
inductive Pulls : Stream → List Observation → List Item → Option Stream → Prop where
  | rest (t : Stream) : Pulls t [] [] (some t)
  | answer {t u : Stream} {n : Nat} {i : Item} {os : List Observation} {is : List Item}
      {r : Option Stream} (h : (t.pull n).value = .answer i u) (rest : Pulls u os is r) :
      Pulls t ((t.pull n).trace ++ os) (i :: is) r
  | ended {t u : Stream} {n : Nat} {os : List Observation} {is : List Item} {r : Option Stream}
      (h : (t.pull n).value = .ended u) (rest : Pulls u os is r) :
      Pulls t ((t.pull n).trace ++ os) is r
  | unfinished {t u : Stream} {n : Nat} (h : (t.pull n).value = .unfinished u) :
      Pulls t (t.pull n).trace [] none

/-! ## Calls -/

def found? : Pull Item → Option Item
  | .answer i _ => some i
  | _ => none

/-- What is left after a pull that returned. -/
def rest? : Pull Item → Option Stream
  | .answer _ u => some u
  | .ended u => some u
  | .unfinished _ => none

/-- A stream in the queue of a merge: its place among the streams that are merged, and how many
items were found of it. -/
structure Seat where
  place : Nat
  count : Nat
  stream : Stream

/-- A pull that a merge makes of the stream of a place, of which `count` items were found before. -/
structure Call where
  place : Nat
  count : Nat
  pull : Traced (Pull Item)

namespace Call

def found (c : Call) : Option Item := found? c.pull.value

def returned (c : Call) : Bool := (rest? c.pull.value).isSome

/-- The call found the end. -/
def last (c : Call) : Bool := c.returned && c.found.isNone

/-- Position in the rounds of `n` streams. -/
def position (n : Nat) (c : Call) : Nat := c.count * n + c.place

end Call

namespace Seat

def position (n : Nat) (e : Seat) : Nat := e.count * n + e.place

def call (e : Seat) (steps : Nat) : Call := ⟨e.place, e.count, e.stream.pull steps⟩

/-- The queue after the stream in front was pulled; nothing follows a pull that does not return. -/
def behind (e : Seat) (queue : List Seat) : Pull Item → List Seat
  | .answer _ u => queue ++ [⟨e.place, e.count + 1, u⟩]
  | .ended _ => queue
  | .unfinished _ => []

end Seat

/-- The seats in front are called one after the other. -/
inductive Calls : List Seat → List Call → List Seat → Prop where
  | refl (queue : List Seat) : Calls queue [] queue
  | call {e : Seat} {queue queue' : List Seat} {calls : List Call} (steps : Nat)
      (rest : Calls (e.behind queue (e.stream.pull steps).value) calls queue') :
      Calls (e :: queue) (e.call steps :: calls) queue'

variable {queue queue' queue'' : List Seat} {calls calls' : List Call} {r r' : Option Stream}

theorem Calls.trans (h : Calls queue calls queue') (h' : Calls queue' calls' queue'') :
    Calls queue (calls ++ calls') queue'' := by
  induction h with
  | refl queue => exact h'
  | call steps _ ih => exact .call steps (ih h')

/-- What pulls on a merge did is what the calls of its queue did. -/
structure Logged (queue : List Seat) (os : List Observation) (is : List Item) (r : Option Stream)
    (calls : List Call) (queue' : List Seat) : Prop where
  along : Calls queue calls queue'
  trace : os = calls.flatMap fun c => c.pull.trace
  items : is = calls.filterMap Call.found
  rest : ∀ u, r = some u → u = merge (queue'.map Seat.stream) ∧ ∀ c ∈ calls, c.returned = true

theorem Logged.trans {os' : List Observation} {is' : List Item}
    (h : Logged queue os is (some u) calls queue')
    (h' : Logged queue' os' is' r calls' queue'') :
    Logged queue (os ++ os') (is ++ is') r (calls ++ calls') queue'' := by
  constructor
  case along => exact h.along.trans h'.along
  case trace => rw [h.trace, h'.trace, List.flatMap_append]
  case items => rw [h.items, h'.items, List.filterMap_append]
  case rest =>
    intro v hv
    obtain ⟨hmerge, hreturned⟩ := h'.rest v hv
    exact ⟨hmerge, List.forall_mem_append.2 ⟨(h.rest u rfl).2, hreturned⟩⟩

/-- A call of the seat in front. -/
theorem Seat.logged (e : Seat) (queue : List Seat) (n : Nat)
    (hr : ∀ u, r = some u → u = merge ((e.behind queue (e.stream.pull n).value).map Seat.stream)
      ∧ (e.call n).returned = true) :
    Logged (e :: queue) (e.stream.pull n).trace (found? (e.stream.pull n).value).toList r
      [e.call n] (e.behind queue (e.stream.pull n).value) := by
  refine ⟨.call n (.refl _), (List.append_nil _).symm, ?_, fun u hu => ?_⟩
  · have hfound : (e.call n).found = found? (e.stream.pull n).value := rfl
    rw [List.filterMap_cons, hfound]
    cases found? (e.stream.pull n).value <;> rfl
  · exact (hr u hu).imp id List.forall_mem_singleton.2

/-- A pull is made of calls, by induction on the queue: each stream is called, up to one with an
item. -/
theorem exists_logged_pull (queue : List Seat) (n : Nat) : ∃ calls queue',
    Logged queue ((merge (queue.map Seat.stream)).pull n).trace
      (found? ((merge (queue.map Seat.stream)).pull n).value).toList
      (rest? ((merge (queue.map Seat.stream)).pull n).value) calls queue' := by
  induction queue generalizing n with
  | nil =>
    cases n with
    | zero => exact ⟨[], [], .refl [], rfl, rfl, fun u h => by cases h⟩
    | succ n =>
      refine ⟨[], [], .refl [], rfl, rfl, fun u h => ?_⟩
      cases h
      exact ⟨rfl, List.forall_mem_nil _⟩
  | cons e queue ih =>
    have hpull := pull_merge e.stream (queue.map Seat.stream) n
    have hcall := fun r => e.logged (r := r) queue n
    rw [List.map_cons]
    simp only [Call.returned, Seat.call] at hcall
    cases hv : (e.stream.pull n).value with
    | answer i u =>
      rw [hv] at hpull hcall
      rw [hpull]
      refine ⟨_, _, hcall _ fun v h => ?_⟩
      cases h
      exact ⟨by rw [Seat.behind, List.map_append]; rfl, rfl⟩
    | unfinished u =>
      rw [hv] at hpull hcall
      rw [hpull]
      exact ⟨_, _, hcall _ fun v h => by cases h⟩
    | ended u =>
      rw [hv] at hpull hcall
      obtain ⟨m, hpull⟩ := hpull
      obtain ⟨calls, queue', hlogged⟩ := ih m
      rw [hpull]
      have hfirst := hcall (some (merge (queue.map Seat.stream))) fun v h => by
        cases h
        exact ⟨rfl, rfl⟩
      exact ⟨_, _, hfirst.trans hlogged⟩

/-- Pulls are made of calls. -/
theorem Pulls.exists_logged (h : Pulls (merge (queue.map Seat.stream)) os is r) :
    ∃ calls queue', Logged queue os is r calls queue' := by
  generalize ht : merge (queue.map Seat.stream) = t at h
  induction h generalizing queue with
  | rest t =>
    refine ⟨[], queue, .refl queue, rfl, rfl, fun u hu => ?_⟩
    cases hu
    exact ⟨ht.symm, List.forall_mem_nil _⟩
  | @answer t u n i os is r hv _ ih =>
    obtain ⟨calls, queue', hlogged⟩ := exists_logged_pull queue n
    rw [ht, hv] at hlogged
    obtain ⟨calls', queue'', hlogged'⟩ := ih (hlogged.rest u rfl).1.symm
    exact ⟨_, _, hlogged.trans hlogged'⟩
  | @ended t u n os is r hv _ ih =>
    obtain ⟨calls, queue', hlogged⟩ := exists_logged_pull queue n
    rw [ht, hv] at hlogged
    obtain ⟨calls', queue'', hlogged'⟩ := ih (hlogged.rest u rfl).1.symm
    exact ⟨_, _, hlogged.trans hlogged'⟩
  | @unfinished t u n hv =>
    obtain ⟨calls, queue', hlogged⟩ := exists_logged_pull queue n
    rw [ht, hv] at hlogged
    exact ⟨_, _, hlogged⟩

/-! ## The order of the calls -/

/-- The seats of a merge of `n` streams stand in the order of their positions, which lie within one
round. -/
structure InRound (n : Nat) (queue : List Seat) : Prop where
  place : ∀ e ∈ queue, e.place < n
  ascending : queue.Pairwise fun e f => e.position n < f.position n
  window : ∀ e ∈ queue, ∀ f ∈ queue, f.position n < e.position n + n

theorem position_next (e : Seat) (u : Stream) :
    (⟨e.place, e.count + 1, u⟩ : Seat).position n = e.position n + n := by
  simp only [Seat.position, Nat.add_mul, Nat.one_mul]
  omega

theorem InRound.tail {e : Seat} (h : InRound n (e :: queue)) : InRound n queue :=
  ⟨fun f hf => h.place f (.tail e hf), (List.pairwise_cons.1 h.ascending).2,
    fun f hf g hg => h.window f (.tail e hf) g (.tail e hg)⟩

/-- A call moves the round on. -/
theorem InRound.behind {e : Seat} (h : InRound n (e :: queue)) (v : Pull Item) :
    InRound n (e.behind queue v) ∧ ∀ f ∈ e.behind queue v, e.position n < f.position n := by
  have hplace := h.place e List.mem_cons_self
  have hfirst := (List.pairwise_cons.1 h.ascending).1
  have hlast := fun f hf => h.window e List.mem_cons_self f (.tail e hf)
  cases v with
  | ended u => exact ⟨h.tail, hfirst⟩
  | unfinished u =>
    exact ⟨⟨List.forall_mem_nil _, .nil, List.forall_mem_nil _⟩, List.forall_mem_nil _⟩
  | answer i u =>
    have hnext := position_next (n := n) e u
    refine ⟨⟨?_, ?_, ?_⟩, ?_⟩
    · exact List.forall_mem_append.2 ⟨h.tail.place, List.forall_mem_singleton.2 hplace⟩
    · refine List.pairwise_append.2 ⟨h.tail.ascending, List.pairwise_singleton _ _, fun f hf => ?_⟩
      rw [List.forall_mem_singleton, hnext]
      exact hlast f hf
    · intro f hf g hg
      rcases List.mem_append.1 hf with hf | hf <;> rcases List.mem_append.1 hg with hg | hg
      · exact h.tail.window f hf g hg
      · have := hfirst f hf
        rw [List.mem_singleton.1 hg, hnext]
        omega
      · have := hlast g hg
        rw [List.mem_singleton.1 hf, hnext]
        omega
      · rw [List.mem_singleton.1 hf, List.mem_singleton.1 hg]
        omega
    · refine List.forall_mem_append.2 ⟨hfirst, List.forall_mem_singleton.2 ?_⟩
      rw [hnext]
      omega

theorem Calls.le_position {b : Nat} (h : Calls queue calls queue')
    (hb : ∀ e ∈ queue, b ≤ e.position n) : ∀ c ∈ calls, b ≤ c.position n := by
  induction h with
  | refl queue => exact List.forall_mem_nil _
  | @call e queue queue' calls steps _ ih =>
    obtain ⟨he, hqueue⟩ := List.forall_mem_cons.1 hb
    refine List.forall_mem_cons.2 ⟨he, ih ?_⟩
    cases (e.stream.pull steps).value with
    | ended u => exact hqueue
    | unfinished u => exact List.forall_mem_nil _
    | answer i u =>
      refine List.forall_mem_append.2 ⟨hqueue, List.forall_mem_singleton.2 ?_⟩
      rw [position_next]
      exact Nat.le_add_right_of_le he

/-- The calls are made round after round, from place to place. -/
theorem Calls.ascending (h : Calls queue calls queue') (hround : InRound n queue) :
    calls.Pairwise fun c d => c.position n < d.position n := by
  induction h with
  | refl queue => exact .nil
  | @call e queue queue' calls steps hrest ih =>
    obtain ⟨hbehind, hlater⟩ := hround.behind (e.stream.pull steps).value
    exact .cons (hrest.le_position hlater) (ih hbehind)

/-- Before the call at a later position every seat was called for every count, up to its end. -/
theorem Calls.called_before {before after : List Call} {c : Call} (h : Calls queue calls queue')
    (hround : InRound n queue) (hcalls : calls = before ++ c :: after) {e : Seat} (he : e ∈ queue)
    (hk : e.count ≤ k) (hposition : k * n + e.place < c.position n) :
    ∃ d ∈ before, d.place = e.place ∧ (d.count = k ∨ d.last = true) := by
  induction h generalizing before e with
  | refl queue => cases before <;> cases hcalls
  | @call first queue queue' calls steps hrest ih =>
    have hle : e.position n ≤ k * n + e.place :=
      Nat.add_le_add_right (Nat.mul_le_mul_right n hk) e.place
    cases before with
    | nil =>
      obtain ⟨rfl, -⟩ := List.cons.inj hcalls
      -- no seat of the queue is before the one in front
      have : first.position n ≤ e.position n := by
        rcases List.mem_cons.1 he with rfl | he
        · exact Nat.le_refl _
        · exact Nat.le_of_lt ((List.pairwise_cons.1 hround.ascending).1 e he)
      exact absurd hposition (Nat.not_lt.2 (Nat.le_trans this hle))
    | cons d before =>
      obtain ⟨rfl, hrests⟩ := List.cons.inj hcalls
      have hlater : ∀ f ∈ first.behind queue (first.stream.pull steps).value, f.place = e.place →
          f.count ≤ k → ∃ d ∈ first.call steps :: before,
            d.place = e.place ∧ (d.count = k ∨ d.last = true) := by
        intro f hf hplace hfk
        rw [← hplace] at hposition ⊢
        obtain ⟨d, hd, hdcall⟩ := ih (hround.behind _).1 hrests hf hfk hposition
        exact ⟨d, .tail _ hd, hdcall⟩
      cases hv : (first.stream.pull steps).value with
      | unfinished u =>
        rw [hv] at hrest
        cases hrest
        cases before <;> cases hrests
      | ended u =>
        rw [hv] at hlater
        rcases List.mem_cons.1 he with rfl | he
        · refine ⟨_, List.mem_cons_self, rfl, .inr ?_⟩
          simp only [Call.last, Call.returned, Call.found, Seat.call, hv]
          rfl
        · exact hlater e he rfl hk
      | answer i u =>
        rw [hv] at hlater
        rcases List.mem_cons.1 he with rfl | he
        · rcases Nat.eq_or_lt_of_le hk with rfl | hlt
          · exact ⟨_, List.mem_cons_self, rfl, .inl rfl⟩
          · exact hlater _ (List.mem_append_right _ (List.mem_singleton_self _)) rfl hlt
        · exact hlater e (List.mem_append_left _ he) rfl hk

/-! ## The calls of one place -/

/-- The calls are pulls on the stream, of which `k` items were found before, one after the other;
none is made after its end or behind one that does not return. -/
def Own : Stream → Nat → List Call → Prop
  | _, _, [] => True
  | t, k, c :: calls => c.count = k ∧ (∃ n, c.pull = t.pull n)
    ∧ match c.pull.value with
      | .answer _ u => Own u (k + 1) calls
      | _ => calls = []

theorem Calls.mem_places (h : Calls queue calls queue') :
    ∀ c ∈ calls, c.place ∈ queue.map Seat.place := by
  induction h with
  | refl queue => exact List.forall_mem_nil _
  | @call e queue queue' calls steps _ ih =>
    refine List.forall_mem_cons.2 ⟨List.mem_cons_self, fun c hc => ?_⟩
    have hplace := ih c hc
    rw [List.map_cons]
    cases hv : (e.stream.pull steps).value with
    | ended u =>
      rw [hv] at hplace
      exact .tail _ hplace
    | unfinished u =>
      rw [hv] at hplace
      cases hplace
    | answer i u =>
      rw [hv, Seat.behind, List.map_append, List.mem_append] at hplace
      rcases hplace with hplace | hplace
      · exact .tail _ hplace
      · rw [List.mem_singleton.1 hplace]
        exact List.mem_cons_self

theorem InRound.place_ne {e : Seat} (h : InRound n (e :: queue)) :
    ∀ f ∈ queue, f.place ≠ e.place := by
  intro f hf hplace
  have hlt := (List.pairwise_cons.1 h.ascending).1 f hf
  have hwindow := h.window e List.mem_cons_self f (.tail e hf)
  rw [← position_next e e.stream] at hwindow
  simp only [Seat.position, hplace, Nat.add_lt_add_iff_right] at hlt hwindow
  -- the counts would lie strictly between a number and the next one
  have hlt := Nat.lt_of_mul_lt_mul_right hlt
  have hwindow := Nat.lt_of_mul_lt_mul_right hwindow
  omega

/-- Each seat is called for its own stream. -/
theorem Calls.own (h : Calls queue calls queue') (hround : InRound n queue) {e : Seat}
    (he : e ∈ queue) : Own e.stream e.count (calls.filter fun c => c.place = e.place) := by
  induction h generalizing e with
  | refl queue => trivial
  | @call first queue queue' calls steps hrest ih =>
    have hbehind := (hround.behind (first.stream.pull steps).value).1
    rcases List.mem_cons.1 he with rfl | he
    · have hcall : (e.call steps).place = e.place := rfl
      rw [List.filter_cons, if_pos (decide_eq_true hcall)]
      refine ⟨rfl, ⟨steps, rfl⟩, ?_⟩
      simp only [Seat.call]
      cases hv : (e.stream.pull steps).value with
      | answer i u =>
        rw [hv] at ih hbehind
        exact ih hbehind (List.mem_append_right _ (List.mem_singleton_self _))
      | ended u =>
        refine List.filter_eq_nil_iff.2 fun c hc => ?_
        rw [hv] at hrest
        obtain ⟨f, hf, hplace⟩ := List.mem_map.1 (hrest.mem_places c hc)
        rw [decide_eq_true_iff, ← hplace]
        exact hround.place_ne f hf
      | unfinished u =>
        rw [hv] at hrest
        cases hrest
        rfl
    · have hcall : (first.call steps).place ≠ e.place := (hround.place_ne e he).symm
      rw [List.filter_cons, if_neg (by rwa [decide_eq_true_iff])]
      cases hv : (first.stream.pull steps).value with
      | answer i u =>
        rw [hv] at ih hbehind
        exact ih hbehind (List.mem_append_left _ he)
      | ended u =>
        rw [hv] at ih hbehind
        exact ih hbehind he
      | unfinished u =>
        rw [hv] at hrest
        cases hrest
        trivial

end Stream

end Goalbase

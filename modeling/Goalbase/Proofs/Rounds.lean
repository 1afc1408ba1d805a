import Goalbase.Proofs.Pulling

/-!
# Goalbase.Proofs.Rounds

A merge serves its streams round by round.

`Walks t is u` says that steps lead from `t` through the items `is` to `u`; pulls find what walks
pass. `Rounds ts k done left is` is the round-robin of the streams `ts` as such: round after round
each stream in turn adds its `k`-th item, or is passed over if it has none. The beginnings of a
merge are those of the round-robin (`walks_merge_iff`), and it ends where that does
(`drains_merge_iff`).
The queue of a merge holds what is left of the streams whose turn is still to come in the present
round, and behind it what is left of those that had theirs (`Stands`); every step of the merge keeps
that (`Follows.step`), and every turn of the rounds can be made (`Rounds.exists_stands`).
-/

namespace Goalbase

namespace Stream

/-- Steps lead from a stream through items to another. -/
inductive Walks : Stream → List Item → Stream → Prop where
  | refl (t : Stream) : Walks t [] t
  | silent {t u v : Stream} {is : List Item} (h : t.step.value = .silent u) (rest : Walks u is v) :
      Walks t is v
  | item {t u v : Stream} {i : Item} {is : List Item} (h : t.step.value = .item i u)
      (rest : Walks u is v) : Walks t (i :: is) v

variable {t u v w : Stream} {i : Item} {is js : List Item} {n k : Nat}

theorem Walks.trans (h : Walks t is u) (h' : Walks u js v) : Walks t (is ++ js) v := by
  induction h with
  | refl t => exact h'
  | silent hs _ ih => exact .silent hs (ih h')
  | item hs _ ih => exact .item hs (ih h')

theorem Walks.append_item (h : Walks t is u) (hu : u.step.value = .item i v) :
    Walks t (is ++ [i]) v := h.trans (.item hu (.refl v))

theorem Walks.append_silent (h : Walks t is u) (hu : u.step.value = .silent v) : Walks t is v := by
  have := h.trans (.silent hu (.refl v))
  rwa [List.append_nil] at this

theorem Quiet.walks (h : Quiet n t u) : Walks t [] u := by
  induction h with
  | refl t => exact .refl t
  | step hs _ ih => exact .silent hs ih

/-! ## Pulls and walks -/

theorem Walks.nth (h : Walks t is u) (hu : u.step.value = .item i v) : t.Nth is.length i := by
  induction h with
  | refl t => exact .zero (gives_of_item hu)
  | silent hs _ ih => exact (Quiet.single hs).nth_iff.2 (ih hu)
  | item hs _ ih => exact .succ (gives_of_item hs) (ih hu)

theorem Nth.exists_walk (h : t.Nth k i) :
    ∃ is u v, is.length = k ∧ Walks t is u ∧ u.step.value = .item i v := by
  induction h with
  | zero hg =>
    obtain ⟨n, u, hq, hu⟩ := gives_iff_quiet.1 hg
    exact ⟨[], u, _, rfl, hq.walks, hu⟩
  | @succ t u i j n hg _ ih =>
    obtain ⟨m, t', hq, ht'⟩ := gives_iff_quiet.1 hg
    obtain ⟨is, w, v, hlength, hw, hv⟩ := ih
    exact ⟨j :: is, w, v, congrArg (· + 1) hlength, hq.walks.trans (.item ht' hw), hv⟩

theorem Walks.drains (h : Walks t is u) (hu : u.step.value = .ended) : t.Drains is := by
  induction h with
  | refl t => exact drains_of_ended hu
  | silent hs _ ih => exact drains_of_silent hs (ih hu)
  | item hs _ ih => exact drains_of_item hs (ih hu)

theorem Drains.exists_walk (h : t.Drains is) : ∃ u, Walks t is u ∧ u.step.value = .ended := by
  induction h with
  | ended h =>
    obtain ⟨n, -, hq, hu⟩ := quiet_of_ended h
    exact ⟨_, hq.walks, hu⟩
  | item h _ ih =>
    obtain ⟨n, t', -, hq, ht'⟩ := quiet_of_answer h
    obtain ⟨w, hw, hend⟩ := ih
    exact ⟨w, hq.walks.trans (.item ht' hw), hend⟩

/-- There is one way only, so of two walks one goes on where the other stopped. -/
theorem Walks.comparable (h : Walks t is u) (h' : Walks t js v) :
    (∃ ks, js = is ++ ks ∧ Walks u ks v) ∨ ∃ ks, is = js ++ ks ∧ Walks v ks u := by
  induction h generalizing js with
  | refl t => exact .inl ⟨js, rfl, h'⟩
  | silent hs hrest ih =>
    cases h' with
    | refl _ => exact .inr ⟨_, rfl, .silent hs hrest⟩
    | silent hs' hrest' =>
      rw [hs] at hs'
      cases hs'
      exact ih hrest'
    | item hs' _ => rw [hs] at hs'; cases hs'
  | @item t u w i is hs hrest ih =>
    cases h' with
    | refl _ => exact .inr ⟨_, rfl, .item hs hrest⟩
    | silent hs' _ => rw [hs] at hs'; cases hs'
    | item hs' hrest' =>
      rw [hs] at hs'
      cases hs'
      obtain ⟨ks, rfl, hks⟩ | ⟨ks, rfl, hks⟩ := ih hrest'
      · exact .inl ⟨ks, rfl, hks⟩
      · exact .inr ⟨ks, rfl, hks⟩

theorem Walks.eq_of_item (h : Walks t [] u) (ht : t.step.value = .item i v) : u = t := by
  cases h with
  | refl _ => rfl
  | silent hs _ => rw [ht] at hs; cases hs

theorem Walks.eq_of_ended (h : Walks t is u) (ht : t.step.value = .ended) : is = [] ∧ u = t := by
  cases h with
  | refl _ => exact ⟨rfl, rfl⟩
  | silent hs _ => rw [ht] at hs; cases hs
  | item hs _ => rw [ht] at hs; cases hs

/-- Where two walks passed as many items, one only lacks silent steps. -/
theorem Walks.of_length_eq (h : Walks t is u) (h' : Walks t js v)
    (hlength : is.length = js.length) : Walks u [] v ∨ Walks v [] u := by
  obtain ⟨ks, rfl, hks⟩ | ⟨ks, rfl, hks⟩ := h.comparable h'
  · have hnil : ks = [] := by
      rw [List.length_append] at hlength
      exact List.eq_nil_of_length_eq_zero (by omega)
    rw [hnil] at hks
    exact .inl hks
  · have hnil : ks = [] := by
      rw [List.length_append] at hlength
      exact List.eq_nil_of_length_eq_zero (by omega)
    rw [hnil] at hks
    exact .inr hks

/-- Every walk leads on to the end, if there is one. -/
theorem Walks.to_end (h : Walks t is u) (h' : Walks t js v) (hend : v.step.value = .ended) :
    ∃ ks, js = is ++ ks ∧ Walks u ks v := by
  obtain hks | ⟨ks, rfl, hks⟩ := h.comparable h'
  · exact hks
  · obtain ⟨rfl, rfl⟩ := hks.eq_of_ended hend
    refine ⟨[], ?_, .refl u⟩
    rw [List.append_nil, List.append_nil]

/-! ## What is left of a stream -/

/-- The stream ends with at most so many items. -/
def Over (t : Stream) (k : Nat) : Prop := ∃ is, t.Drains is ∧ is.length ≤ k

/-- What is left of the stream behind its first items. -/
def Left (t : Stream) (k : Nat) (u : Stream) : Prop := ∃ is, is.length = k ∧ Walks t is u

theorem Over.succ (h : t.Over k) : t.Over (k + 1) := by
  obtain ⟨is, his, hle⟩ := h
  exact ⟨is, his, Nat.le_succ_of_le hle⟩

theorem left_zero (t : Stream) : t.Left 0 t := ⟨[], rfl, .refl t⟩

theorem Left.nth (h : t.Left k u) (hu : u.step.value = .item i v) : t.Nth k i := by
  obtain ⟨is, rfl, hw⟩ := h
  exact hw.nth hu

theorem Left.rest (h : t.Left k u) (hu : u.step.value = .item i v) : t.Left (k + 1) v := by
  obtain ⟨is, rfl, hw⟩ := h
  exact ⟨is ++ [i], List.length_append, hw.append_item hu⟩

theorem Left.walk (h : t.Left k u) (hu : Walks u [] v) : t.Left k v := by
  obtain ⟨is, hlength, hw⟩ := h
  have hall := hw.trans hu
  rw [List.append_nil] at hall
  exact ⟨is, hlength, hall⟩

theorem Left.over (h : t.Left k u) (hu : u.step.value = .ended) : t.Over k := by
  obtain ⟨is, rfl, hw⟩ := h
  exact ⟨is, hw.drains hu, Nat.le_refl _⟩

/-- The next item of what is left is the item behind those that were passed. -/
theorem Left.exists_item (h : t.Left k u) (hi : t.Nth k i) :
    ∃ w v, Walks u [] w ∧ w.step.value = .item i v := by
  obtain ⟨is, hlength, hw⟩ := h
  obtain ⟨js, w, v, hlength', hw', hv⟩ := hi.exists_walk
  obtain hwalk | hwalk := hw.of_length_eq hw' (hlength.trans hlength'.symm)
  · exact ⟨w, v, hwalk, hv⟩
  · rw [hwalk.eq_of_item hv]
    exact ⟨w, v, .refl w, hv⟩

/-- What is left of a stream that is over ends without an item. -/
theorem Left.exists_ended (h : t.Left k u) (ht : t.Over k) :
    ∃ w, Walks u [] w ∧ w.step.value = .ended := by
  obtain ⟨is, hlength, hw⟩ := h
  obtain ⟨js, hjs, hle⟩ := ht
  obtain ⟨w, hw', hend⟩ := hjs.exists_walk
  obtain ⟨ks, rfl, hks⟩ := hw.to_end hw' hend
  have hnil : ks = [] := by
    rw [List.length_append] at hle
    exact List.eq_nil_of_length_eq_zero (by omega)
  rw [hnil] at hks
  exact ⟨w, hks, hend⟩

theorem Over.not_nth (h : t.Over k) : ¬t.Nth k i := by
  intro hi
  obtain ⟨is, u, v, rfl, hw, hu⟩ := hi.exists_walk
  obtain ⟨js, hjs, hle⟩ := h
  obtain ⟨w, hw', hend⟩ := hjs.exists_walk
  obtain ⟨ks, rfl, -⟩ := (hw.append_item hu).to_end hw' hend
  simp only [List.length_append, List.length_singleton] at hle
  omega

/-! ## Rounds -/

/-- The items of the rounds before the `k`-th and of those streams that had their turn in it; the
others are still to come. -/
inductive Rounds (ts : List Stream) : (k : Nat) → (done left : List Stream) → List Item → Prop where
  | start : Rounds ts 0 [] ts []
  | found {k : Nat} {done left : List Stream} {t : Stream} {is : List Item} {i : Item}
      (h : Rounds ts k done (t :: left) is) (hi : t.Nth k i) :
      Rounds ts k (done ++ [t]) left (is ++ [i])
  | passed {k : Nat} {done left : List Stream} {t : Stream} {is : List Item}
      (h : Rounds ts k done (t :: left) is) (ht : t.Over k) : Rounds ts k (done ++ [t]) left is
  | round {k : Nat} {done : List Stream} {is : List Item} (h : Rounds ts k done [] is) :
      Rounds ts (k + 1) [] ts is

/-- The round-robin of the streams begins with the items. -/
def RoundRobin (ts : List Stream) (is : List Item) : Prop :=
  ∃ k done left, Rounds ts k done left is

/-- The round-robin of the streams has these items and no others. -/
def WholeRoundRobin (ts : List Stream) (is : List Item) : Prop :=
  ∃ k, Rounds ts k [] ts is ∧ ∀ t ∈ ts, t.Over k

/-- What is left of streams after a number of pulls on each; those that are over may be missing. -/
inductive Rests (k : Nat) : List Stream → List Stream → Prop where
  | nil : Rests k [] []
  | kept {t u : Stream} {ts queue : List Stream} (h : t.Left k u) (rest : Rests k ts queue) :
      Rests k (t :: ts) (u :: queue)
  | missing {t : Stream} {ts queue : List Stream} (h : t.Over k) (rest : Rests k ts queue) :
      Rests k (t :: ts) queue

variable {ts us done left queue front back : List Stream}

theorem Rounds.append_eq (h : Rounds ts k done left is) : done ++ left = ts := by
  induction h with
  | start => rfl
  | found _ _ ih => rwa [List.append_assoc]
  | passed _ _ ih => rwa [List.append_assoc]
  | round _ _ => rfl

theorem Rounds.done_eq (h : Rounds ts k done [] is) : done = ts := by
  have hall := h.append_eq
  rwa [List.append_nil] at hall

theorem rests_zero (ts : List Stream) : Rests 0 ts ts := by
  induction ts with
  | nil => exact .nil
  | cons t ts ih => exact .kept (left_zero t) ih

theorem Rests.append (h : Rests k ts front) (h' : Rests k us back) :
    Rests k (ts ++ us) (front ++ back) := by
  induction h with
  | nil => exact h'
  | kept h _ ih => exact .kept h ih
  | missing h _ ih => exact .missing h ih

theorem Rests.append_kept (h : Rests k ts queue) (ht : t.Left k u) :
    Rests k (ts ++ [t]) (queue ++ [u]) := h.append (.kept ht .nil)

theorem Rests.append_over (h : Rests k ts queue) (ht : t.Over k) : Rests k (ts ++ [t]) queue := by
  have := h.append (.missing ht .nil)
  rwa [List.append_nil] at this

theorem Rests.all_over (h : Rests k ts []) : ∀ t ∈ ts, t.Over k := by
  generalize hqueue : ([] : List Stream) = queue at h
  induction h with
  | nil => exact fun t ht => nomatch ht
  | kept _ _ _ => cases hqueue
  | missing h _ ih => exact List.forall_mem_cons.2 ⟨h, ih hqueue⟩

/-! ## Steps of a merge -/

theorem step_merge (t : Stream) (queue : List Stream) :
    (merge (t :: queue)).step.value = mergeStep queue t.step.value := rfl

theorem Walks.merge_front (h : Walks t [] u) :
    Walks (merge (t :: queue)) [] (merge (u :: queue)) := by
  generalize his : ([] : List Item) = is at h
  induction h with
  | refl t => exact his ▸ .refl _
  | @silent t u v is hs _ ih =>
    have hstep := step_merge t queue
    rw [hs] at hstep
    exact .silent hstep (ih his)
  | item _ _ _ => cases his

theorem walks_merge_item (h : Walks t [] u) (hu : u.step.value = .item i v) :
    Walks (merge (t :: queue)) [i] (merge (queue ++ [v])) := by
  have hstep := step_merge u queue
  rw [hu] at hstep
  exact h.merge_front.append_item hstep

theorem walks_merge_ended (h : Walks t [] u) (hu : u.step.value = .ended) :
    Walks (merge (t :: queue)) [] (merge queue) := by
  have hstep := step_merge u queue
  rw [hu] at hstep
  exact h.merge_front.append_silent hstep

/-- The streams that are over leave the queue. -/
theorem Rests.walks_of_over (h : Rests k ts front) (hover : ∀ t ∈ ts, t.Over k) :
    Walks (merge front) [] (merge []) := by
  induction h with
  | nil => exact .refl _
  | kept h _ ih =>
    obtain ⟨ht, hts⟩ := List.forall_mem_cons.1 hover
    obtain ⟨w, hw, hend⟩ := h.exists_ended ht
    exact (walks_merge_ended hw hend).trans (ih hts)
  | missing _ _ ih => exact ih (List.forall_mem_cons.1 hover).2

/-- After so much of the round-robin the queue of a merge has this front and this back. -/
structure Stands (ts : List Stream) (k : Nat) (done left : List Stream) (is : List Item)
    (front back : List Stream) : Prop where
  rounds : Rounds ts k done left is
  front : Rests k left front
  back : Rests (k + 1) done back

theorem stands_start (ts : List Stream) : Stands ts 0 [] ts [] ts [] :=
  ⟨.start, rests_zero ts, .nil⟩

/-- The merge follows the rounds. -/
theorem Rounds.exists_stands (h : Rounds ts k done left is) :
    ∃ front back, Stands ts k done left is front back
      ∧ Walks (merge ts) is (merge (front ++ back)) := by
  induction h with
  | start =>
    refine ⟨ts, [], stands_start ts, ?_⟩
    rw [List.append_nil]
    exact .refl _
  | @found k done left t is i hrounds hi ih =>
    obtain ⟨front, back, hstands, hwalk⟩ := ih
    cases hstands.front with
    | missing ht _ => exact absurd hi ht.not_nth
    | @kept _ u _ front ht hfront =>
      obtain ⟨w, v, hw, hv⟩ := ht.exists_item hi
      have hback := hstands.back.append_kept ((ht.walk hw).rest hv)
      refine ⟨front, back ++ [v], ⟨.found hrounds hi, hfront, hback⟩, ?_⟩
      rw [← List.append_assoc]
      exact hwalk.trans (walks_merge_item hw hv)
  | @passed k done left t is hrounds ht ih =>
    obtain ⟨front, back, hstands, hwalk⟩ := ih
    have hback := hstands.back.append_over ht.succ
    cases hstands.front with
    | missing _ hfront => exact ⟨front, back, ⟨.passed hrounds ht, hfront, hback⟩, hwalk⟩
    | kept hleft hfront =>
      obtain ⟨w, hw, hend⟩ := hleft.exists_ended ht
      have hnext := hwalk.trans (walks_merge_ended hw hend)
      rw [List.append_nil] at hnext
      exact ⟨_, back, ⟨.passed hrounds ht, hfront, hback⟩, hnext⟩
  | @round k done is hrounds ih =>
    obtain ⟨front, back, hstands, hwalk⟩ := ih
    cases hstands.front
    refine ⟨back, [], ⟨.round hrounds, hrounds.done_eq ▸ hstands.back, .nil⟩, ?_⟩
    rwa [List.append_nil]

/-- Whose turn it is: streams that are over are passed, up to one that the queue still holds. -/
theorem Stands.turn (h : Stands ts k done left is front back) :
    (front = [] ∧ ∃ done, Rounds ts k done [] is ∧ Rests (k + 1) done back)
      ∨ ∃ done t left u rest, front = u :: rest ∧ t.Left k u
        ∧ Stands ts k done (t :: left) is front back ∧ Rests k left rest := by
  obtain ⟨hrounds, hfront, hback⟩ := h
  induction hfront generalizing done with
  | nil => exact .inl ⟨rfl, done, hrounds, hback⟩
  | kept ht hrest =>
    exact .inr ⟨done, _, _, _, _, rfl, ht, ⟨hrounds, .kept ht hrest, hback⟩, hrest⟩
  | missing ht _ ih => exact ih (hrounds.passed ht) (hback.append_over ht.succ)

/-- The round-robin has ended, or the stream in front of the queue has its turn. -/
theorem Stands.next (h : Stands ts k done left is front back) :
    (front ++ back = [] ∧ WholeRoundRobin ts is)
      ∨ ∃ k done t left u rest back', front ++ back = u :: (rest ++ back') ∧ t.Left k u
        ∧ Rounds ts k done (t :: left) is ∧ Rests k left rest ∧ Rests (k + 1) done back' := by
  obtain ⟨rfl, done, hrounds, hback⟩ | ⟨done, t, left, u, rest, rfl, ht, hstands, hrest⟩ := h.turn
  · rw [hrounds.done_eq] at hback
    -- the round is over, so the back of the queue is the front of the next round
    have hround : Stands ts (k + 1) [] ts is back [] := ⟨hrounds.round, hback, .nil⟩
    obtain ⟨rfl, -⟩ | ⟨done, t, left, u, rest, rfl, ht, hstands, hrest⟩ := hround.turn
    · exact .inl ⟨rfl, k + 1, hrounds.round, hback.all_over⟩
    · refine .inr ⟨k + 1, done, t, left, u, rest, [], ?_, ht, hstands.rounds, hrest, hstands.back⟩
      rw [List.append_nil]
      rfl
  · exact .inr ⟨k, done, t, left, u, rest, back, rfl, ht, hstands.rounds, hrest, hstands.back⟩

/-- The stream is what a merge has become after so much of the round-robin. -/
def Follows (ts : List Stream) (is : List Item) (t : Stream) : Prop :=
  ∃ k done left front back, Stands ts k done left is front back ∧ t = merge (front ++ back)

/-- The rounds follow a step of the merge. -/
theorem Follows.step (h : Follows ts is t) :
    match t.step.value with
    | .item i u => Follows ts (is ++ [i]) u
    | .silent u => Follows ts is u
    | .ended => WholeRoundRobin ts is := by
  obtain ⟨k, done, left, front, back, hstands, rfl⟩ := h
  obtain ⟨hnil, hwhole⟩ | ⟨k, done, t, left, u, rest, back, hcons, ht, hrounds, hrest, hback⟩ :=
    hstands.next
  · rw [hnil]
    exact hwhole
  · rw [hcons, step_merge]
    cases hu : u.step.value with
    | item i v =>
      refine ⟨k, done ++ [t], left, rest, back ++ [v], ⟨hrounds.found (ht.nth hu), hrest, ?_⟩, ?_⟩
      · exact hback.append_kept (ht.rest hu)
      · rw [List.append_assoc]
    | silent v =>
      have hleft := ht.walk (.silent hu (.refl v))
      exact ⟨k, done, t :: left, v :: rest, back, ⟨hrounds, .kept hleft hrest, hback⟩, rfl⟩
    | ended =>
      have hover := ht.over hu
      exact ⟨k, done ++ [t], left, rest, back,
        ⟨hrounds.passed hover, hrest, hback.append_over hover.succ⟩, rfl⟩

/-- The rounds follow the merge. -/
theorem Follows.walk (h : Follows ts is t) (hwalk : Walks t js u) : Follows ts (is ++ js) u := by
  induction hwalk generalizing is with
  | refl t => rwa [List.append_nil]
  | silent hs _ ih =>
    have hstep := h.step
    rw [hs] at hstep
    exact ih hstep
  | @item t u v i js hs _ ih =>
    have hstep := h.step
    rw [hs] at hstep
    rw [← List.singleton_append, ← List.append_assoc]
    exact ih hstep

theorem follows_start (ts : List Stream) : Follows ts [] (merge ts) :=
  ⟨0, [], ts, ts, [], stands_start ts, by rw [List.append_nil]⟩

/-- Walks of a merge pass what the round-robin begins with. -/
theorem walks_merge_iff : (∃ u, Walks (merge ts) is u) ↔ RoundRobin ts is := by
  constructor
  · rintro ⟨u, hu⟩
    obtain ⟨k, done, left, front, back, hstands, -⟩ := (follows_start ts).walk hu
    exact ⟨k, done, left, hstands.rounds⟩
  · rintro ⟨k, done, left, hrounds⟩
    obtain ⟨front, back, -, hwalk⟩ := hrounds.exists_stands
    exact ⟨_, hwalk⟩

/-- A merge ends where the round-robin ends. -/
theorem drains_merge_iff : (merge ts).Drains is ↔ WholeRoundRobin ts is := by
  constructor
  · intro h
    obtain ⟨w, hwalk, hend⟩ := h.exists_walk
    have hstep := ((follows_start ts).walk hwalk).step
    rw [hend] at hstep
    exact hstep
  · rintro ⟨k, hrounds, hover⟩
    obtain ⟨front, back, hstands, hwalk⟩ := hrounds.exists_stands
    cases hstands.back
    rw [List.append_nil] at hwalk
    have hend := hwalk.trans (hstands.front.walks_of_over hover)
    rw [List.append_nil] at hend
    exact hend.drains rfl

end Stream

end Goalbase

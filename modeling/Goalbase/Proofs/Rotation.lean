import Goalbase.Proofs.Calling
import Mathlib.Data.List.Induction

/-!
# Goalbase.Proofs.Rotation

Merges are lazy and serve their streams round by round.

`Roster ts calls` states the order in which a merge of `ts` calls them. What it finds are the items
of the round-robin (`servesInRounds`), where the `k`-th item of the `i`-th of `n` streams has at
most `k * n + i` items before it. A disjunction is a merge of goals that are not yet applied: the
first call of a place applies the goal there, so its goals are applied one after the other, and no
more of them than the items asked for (`opensInTurn`).
-/

namespace Goalbase

namespace Stream

variable {t : Stream} {is : List Item} {n k : Nat} {queue' : List Seat} {calls : List Call}

/-! ## The calls of a merge -/

/-- The calls of a merge of `ts`, in the order in which they are made. -/
structure Roster (ts : List Stream) (calls : List Call) : Prop where
  place : ∀ c ∈ calls, c.place < ts.length
  own : ∀ i t, ts[i]? = some t → Own t 0 (calls.filter fun c => c.place = i)
  /-- Round after round, and within a round from left to right. -/
  ascending : calls.Pairwise fun c d =>
    c.count < d.count ∨ (c.count = d.count ∧ c.place < d.place)
  /-- Before a call every stream to its left was called for as many items, or has ended. -/
  left : ∀ before c after, calls = before ++ c :: after → ∀ j < c.place,
    ∃ d ∈ before, d.place = j ∧ (d.count = c.count ∨ d.last = true)
  early : ∀ before c after, calls = before ++ c :: after →
    before.length ≤ c.count * ts.length + c.place

def seats (ts : List Stream) : List Seat := ts.mapIdx fun i t => ⟨i, 0, t⟩

variable {ts : List Stream}

theorem mem_seats {e : Seat} : e ∈ seats ts ↔ ∃ i t, ts[i]? = some t ∧ e = ⟨i, 0, t⟩ := by
  simp only [seats, List.mem_mapIdx, List.getElem?_eq_some_iff]
  constructor
  · rintro ⟨i, hi, rfl⟩
    exact ⟨i, ts[i], ⟨hi, rfl⟩, rfl⟩
  · rintro ⟨i, t, ⟨hi, rfl⟩, rfl⟩
    exact ⟨i, hi, rfl⟩

theorem map_stream_seats (ts : List Stream) : (seats ts).map Seat.stream = ts :=
  List.ext_getElem (by simp [seats]) (by simp [seats])

theorem inRound_seats (ts : List Stream) : InRound ts.length (seats ts) := by
  have hposition : ∀ e ∈ seats ts, e.position ts.length = e.place ∧ e.place < ts.length := by
    intro e he
    obtain ⟨i, t, ht, rfl⟩ := mem_seats.1 he
    obtain ⟨hi, -⟩ := List.getElem?_eq_some_iff.1 ht
    exact ⟨by rw [Seat.position, Nat.zero_mul, Nat.zero_add], hi⟩
  refine ⟨fun e he => (hposition e he).2, ?_, fun e _ f hf => ?_⟩
  · refine List.pairwise_iff_getElem.2 fun i j hi hj hij => ?_
    rw [(hposition _ (List.getElem_mem hi)).1, (hposition _ (List.getElem_mem hj)).1]
    simpa [seats] using hij
  · have := hposition f hf
    omega

theorem lex_of_position {c d : Call} (hd : d.place < n) (h : c.position n < d.position n) :
    c.count < d.count ∨ (c.count = d.count ∧ c.place < d.place) := by
  rcases Nat.lt_trichotomy c.count d.count with hlt | heq | hgt
  · exact .inl hlt
  · simp only [Call.position, heq, Nat.add_lt_add_iff_left] at h
    exact .inr ⟨heq, h⟩
  · -- a whole round lies between them
    have hround := Nat.mul_le_mul_right n (Nat.succ_le_of_lt hgt)
    simp only [Call.position, Nat.succ_mul] at h hround
    omega

/-- Ascending numbers are at least as many as come before. -/
theorem length_le_of_ascending {b : Nat} {before after : List Call} {c : Call}
    (h : (before ++ c :: after).Pairwise fun c d => c.position n < d.position n)
    (hb : ∀ d ∈ before ++ c :: after, b ≤ d.position n) : b + before.length ≤ c.position n := by
  induction before generalizing b with
  | nil => exact hb c (List.mem_append_right _ List.mem_cons_self)
  | cons d before ih =>
    obtain ⟨hd, hrest⟩ := List.pairwise_cons.1 h
    have hle := ih (b := d.position n + 1) hrest hd
    have := hb d List.mem_cons_self
    rw [List.length_cons]
    omega

/-- The calls that are made from a merge of `ts`. -/
theorem Calls.roster (h : Calls (seats ts) calls queue') : Roster ts calls := by
  have hround := inRound_seats ts
  have hascending := h.ascending hround
  have hplace : ∀ c ∈ calls, c.place < ts.length := by
    intro c hc
    obtain ⟨e, he, hplace⟩ := List.mem_map.1 (h.mem_places c hc)
    exact hplace ▸ hround.place e he
  constructor
  case place => exact hplace
  case own => exact fun i t ht => h.own hround (mem_seats.2 ⟨i, t, ht, rfl⟩)
  case ascending =>
    exact hascending.imp_of_mem fun _ hd hlt => lex_of_position (hplace _ hd) hlt
  case left =>
    intro before c after hcalls j hj
    have hc : c ∈ calls := hcalls ▸ List.mem_append_right _ List.mem_cons_self
    have hlt : j < ts.length := Nat.lt_trans hj (hplace c hc)
    exact h.called_before hround hcalls (mem_seats.2 ⟨j, _, List.getElem?_eq_getElem hlt, rfl⟩)
      (Nat.zero_le _) (Nat.add_lt_add_left hj _)
  case early =>
    intro before c after hcalls
    rw [hcalls] at hascending
    have := length_le_of_ascending hascending fun d _ => Nat.zero_le _
    rwa [Nat.zero_add] at this

/-! ## The items of a merge -/

theorem RespondsFor.over_or_nth (h : RespondsFor (k + 1) t) : t.Over k ∨ ∃ i, t.Nth k i := by
  induction k generalizing t with
  | zero =>
    rcases h with ⟨steps, u, he⟩ | ⟨i, u, hg, -⟩
    · exact .inl ⟨[], .ended he, Nat.le_refl 0⟩
    · exact .inr ⟨i, .zero hg⟩
  | succ k ih =>
    rcases h with ⟨steps, u, he⟩ | ⟨i, u, hg, hu⟩
    · exact .inl ⟨[], .ended he, Nat.zero_le _⟩
    · rcases ih hu with ⟨is, his, hle⟩ | ⟨j, hj⟩
      · obtain ⟨steps, hsteps⟩ := hg
        exact .inl ⟨i :: is, .item hsteps his, Nat.succ_le_succ hle⟩
      · exact .inr ⟨j, .succ hg hj⟩

/-- Streams whose pulls return can have their turns. -/
theorem Rounds.advance {front done left : List Stream} (h : Rounds ts k front (done ++ left) is)
    (hdone : ∀ t ∈ done, RespondsFor (k + 1) t) : ∃ is', Rounds ts k (front ++ done) left is' := by
  induction done generalizing front is with
  | nil => exact ⟨is, by rwa [List.append_nil]⟩
  | cons t done ih =>
    obtain ⟨ht, hdone⟩ := List.forall_mem_cons.1 hdone
    rw [← List.singleton_append (l := done), ← List.append_assoc]
    rcases ht.over_or_nth with hover | ⟨i, hi⟩
    · exact ih (h.passed hover) hdone
    · exact ih (h.found hi) hdone

theorem exists_round (h : ∀ t ∈ ts, RespondsFor k t) : ∃ is, Rounds ts k [] ts is := by
  induction k with
  | zero => exact ⟨[], .start⟩
  | succ k ih =>
    obtain ⟨is, hrounds⟩ := ih fun t ht => (h t ht).pred
    have hall : Rounds ts k [] (ts ++ []) is := by rwa [List.append_nil]
    obtain ⟨is', hrounds'⟩ := hall.advance h
    exact ⟨is', hrounds'.round⟩

theorem Rounds.length_le {done left : List Stream} (h : Rounds ts k done left is) :
    is.length ≤ k * ts.length + done.length := by
  induction h with
  | start => exact Nat.zero_le _
  | found _ _ ih =>
    simp only [List.length_append, List.length_singleton]
    omega
  | passed _ _ ih =>
    simp only [List.length_append, List.length_singleton]
    omega
  | round h ih =>
    rw [h.done_eq] at ih
    rw [Nat.succ_mul]
    exact ih

/-- The items and the calls of a merge. -/
structure ServesInRounds (ts : List Stream) : Prop where
  begins : ∀ is, (∃ u, Walks (merge ts) is u) ↔ RoundRobin ts is
  drains : ∀ is, (merge ts).Drains is ↔ WholeRoundRobin ts is
  /-- The `k`-th item of the `i`-th stream is found behind those of the rounds before it, if the
  pulls that come before it return. -/
  found : ∀ k i t item, ts[i]? = some t → t.Nth k item → (∀ u ∈ ts, RespondsFor k u) →
    (∀ u ∈ ts.take i, RespondsFor (k + 1) u) →
    ∃ before u, Rounds ts k (ts.take i) (ts.drop i) before ∧ before.length ≤ k * ts.length + i
      ∧ Walks (merge ts) (before ++ [item]) u
  calls : ∀ os is r, Pulls (merge ts) os is r →
    ∃ calls queue', Logged (seats ts) os is r calls queue' ∧ Roster ts calls

theorem servesInRounds (ts : List Stream) : ServesInRounds ts := by
  constructor
  case begins => exact fun is => walks_merge_iff
  case drains => exact fun is => drains_merge_iff
  case found =>
    intro k i t item ht hitem hall hleft
    obtain ⟨hi, rfl⟩ := List.getElem?_eq_some_iff.1 ht
    obtain ⟨is, hrounds⟩ := exists_round hall
    obtain ⟨before, hbefore⟩ := Rounds.advance (by rwa [List.take_append_drop i ts]) hleft
    have hlength := hbefore.length_le
    rw [List.nil_append, List.length_take_of_le (Nat.le_of_lt hi)] at hlength
    rw [List.nil_append, List.drop_eq_getElem_cons hi] at hbefore
    obtain ⟨u, hu⟩ := walks_merge_iff.2 ⟨k, _, _, hbefore.found hitem⟩
    exact ⟨before, u, List.drop_eq_getElem_cons hi ▸ hbefore, hlength, hu⟩
  case calls =>
    intro os is r h
    rw [← map_stream_seats ts] at h
    obtain ⟨calls, queue', hlogged⟩ := h.exists_logged
    exact ⟨calls, queue', hlogged, hlogged.along.roster⟩

/-! ## The goals of a disjunction -/

theorem Own.count_le (h : Own t k calls) : ∀ c ∈ calls, k ≤ c.count := by
  induction calls generalizing t k with
  | nil => exact List.forall_mem_nil _
  | cons c calls ih =>
    obtain ⟨hcount, -, hrest⟩ := h
    refine List.forall_mem_cons.2 ⟨Nat.le_of_eq hcount.symm, fun d hd => ?_⟩
    cases hv : c.pull.value with
    | answer i u =>
      rw [hv] at hrest
      exact Nat.le_of_succ_le (ih hrest d hd)
    | ended u =>
      rw [hv] at hrest
      rw [hrest] at hd
      cases hd
    | unfinished u =>
      rw [hv] at hrest
      rw [hrest] at hd
      cases hd

/-- The first call is a pull on the stream itself. -/
theorem Own.exists_pull (h : Own t k calls) {c : Call} (hc : c ∈ calls) (hcount : c.count = k) :
    ∃ n, c.pull = t.pull n := by
  cases hc with
  | head => exact h.2.1
  | @tail d calls hc =>
    obtain ⟨-, -, hrest⟩ := h
    cases hv : d.pull.value with
    | answer i u =>
      rw [hv] at hrest
      have := hrest.count_le c hc
      omega
    | ended u =>
      rw [hv] at hrest
      rw [hrest] at hc
      cases hc
    | unfinished u =>
      rw [hv] at hrest
      rw [hrest] at hc
      cases hc

/-- The first pull on the stream of a goal that is not yet applied applies it. -/
theorem pull_waiting (g : Goal) (s : State) (n : Nat) :
    (waiting g s).pull (n + 1) = (g.apply s).bind (Stream.pull n) := by
  have hstep : (waiting g s).step = (g.apply s).map .silent := rfl
  rw [pull_succ, hstep]
  rfl

theorem eq_range_of_closed {l : List Nat} (h : l.Pairwise (· < ·))
    (hclosed : ∀ m ∈ l, ∀ j < m, j ∈ l) : l = List.range l.length := by
  induction l using List.reverseRecOn with
  | nil => rfl
  | append_singleton l m ih =>
    obtain ⟨hl, -, hm⟩ := List.pairwise_append.1 h
    have hm : ∀ j ∈ l, j < m := fun j hj => hm j hj m (List.mem_singleton_self m)
    have hbelow : ∀ j < m, j ∈ l := by
      intro j hj
      have hmem := hclosed m (List.mem_append_right _ (List.mem_singleton_self m)) j hj
      rcases List.mem_append.1 hmem with hmem | hmem
      · exact hmem
      · exact absurd (List.mem_singleton.1 hmem) (Nat.ne_of_lt hj)
    have ih := ih hl fun k hk j hj => hbelow j (Nat.lt_trans hj (hm k hk))
    have hlength : m = l.length := by
      rcases Nat.lt_trichotomy m l.length with hlt | heq | hgt
      · rw [← List.mem_range, ← ih] at hlt
        exact absurd (hm m hlt) (Nat.lt_irrefl m)
      · exact heq
      · have hmem : l.length ∈ List.range l.length := ih ▸ hbelow _ hgt
        exact absurd (List.mem_range.1 hmem) (Nat.lt_irrefl _)
    rw [List.length_append, List.length_singleton, List.range_succ, ← ih, hlength]

/-- The first calls of the places. On a disjunction they are those that apply its goals. -/
def firsts (calls : List Call) : List Call := calls.filter fun c => c.count = 0

/-- After pulls that returned: which goals of a disjunction were applied. -/
structure AppliesInTurn (goals : List Goal) (s : State) (calls : List Call) (is : List Item) :
    Prop where
  upTo : (firsts calls).length ≤ goals.length
  inOrder : (firsts calls).map Call.place = List.range (firsts calls).length
  /-- Such a call applies the goal of its place to the input state and pulls the stream of that. -/
  applies : ∀ c ∈ firsts calls, ∃ g n, goals[c.place]? = some g
    ∧ c.pull = (g.apply s).bind (Stream.pull n)
  /-- One goal for every item that was found, apart from those without items. -/
  needed : (firsts calls).length ≤ is.length + ((firsts calls).filter Call.last).length

theorem mem_firsts {c : Call} : c ∈ firsts calls ↔ c ∈ calls ∧ c.count = 0 := by
  rw [firsts, List.mem_filter, decide_eq_true_iff]

/-- The places are called for the first time one after the other. -/
theorem Roster.firsts_eq (h : Roster ts calls) :
    (firsts calls).map Call.place = List.range (firsts calls).length := by
  have hascending : ((firsts calls).map Call.place).Pairwise (· < ·) := by
    rw [List.pairwise_map]
    refine (h.ascending.sublist List.filter_sublist).imp_of_mem fun {c d} hc hd hlt => ?_
    have hc := (mem_firsts.1 hc).2
    have hd := (mem_firsts.1 hd).2
    omega
  have hclosed : ∀ m ∈ (firsts calls).map Call.place, ∀ j < m,
      j ∈ (firsts calls).map Call.place := by
    intro m hm j hj
    obtain ⟨c, hc, rfl⟩ := List.mem_map.1 hm
    obtain ⟨hmem, hcount⟩ := mem_firsts.1 hc
    obtain ⟨before, after, hcalls⟩ := List.append_of_mem hmem
    obtain ⟨d, hd, rfl, hdcall⟩ := h.left before c after hcalls j hj
    have hlex := h.ascending
    rw [hcalls] at hlex
    have hdc := (List.pairwise_append.1 hlex).2.2 d hd c List.mem_cons_self
    -- what comes before a first call is a first call
    have hdcount : d.count = 0 := by omega
    have hdmem : d ∈ calls := hcalls ▸ List.mem_append_left _ hd
    exact List.mem_map_of_mem (mem_firsts.2 ⟨hdmem, hdcount⟩)
  have hrange := eq_range_of_closed hascending hclosed
  rwa [List.length_map] at hrange

theorem length_firsts_le (h : ∀ c ∈ calls, c.returned = true) : (firsts calls).length
    ≤ (calls.filterMap Call.found).length + ((firsts calls).filter Call.last).length := by
  induction calls with
  | nil => exact Nat.zero_le _
  | cons c calls ih =>
    obtain ⟨hc, hcalls⟩ := List.forall_mem_cons.1 h
    have ih := ih hcalls
    have hfirsts : firsts (c :: calls)
        = if c.count = 0 then c :: firsts calls else firsts calls := by
      simp only [firsts, List.filter_cons, decide_eq_true_eq]
    rw [List.filterMap_cons, hfirsts]
    split
    · rename_i hcount
      cases hfound : c.found with
      | some i =>
        simp only [List.length_cons, List.filter_cons]
        split
        · rw [List.length_cons]
          omega
        · omega
      | none =>
        have hlast : c.last = true := by rw [Call.last, hc, hfound]; rfl
        simp only [List.length_cons, List.filter_cons, if_pos hlast]
        omega
    · cases c.found with
      | some i =>
        rw [List.length_cons]
        omega
      | none => exact ih

/-- The goals of a disjunction are applied in turn, none before the first pull. -/
structure OpensInTurn (goals : List Goal) (s : State) : Prop where
  waits : ((Goal.or goals).apply s).trace = []
  calls : ∀ os is u, Pulls ((Goal.or goals).apply s).value os is (some u) →
    ∃ calls queue', Logged (seats (goals.map fun g => waiting g s)) os is (some u) calls queue'
      ∧ Roster (goals.map fun g => waiting g s) calls ∧ AppliesInTurn goals s calls is

theorem opensInTurn (goals : List Goal) (s : State) : OpensInTurn goals s := by
  refine ⟨rfl, fun os is u h => ?_⟩
  have hor : ((Goal.or goals).apply s).value
      = merge ((seats (goals.map fun g => waiting g s)).map Seat.stream) := by
    rw [map_stream_seats]
    rfl
  rw [hor] at h
  obtain ⟨calls, queue', hlogged⟩ := h.exists_logged
  have hroster := hlogged.along.roster
  have hreturned := (hlogged.rest u rfl).2
  have hplace : ∀ c ∈ calls, c.place < goals.length := by
    intro c hc
    have := hroster.place c hc
    rwa [List.length_map] at this
  refine ⟨calls, queue', hlogged, hroster, ?_⟩
  constructor
  case inOrder => exact hroster.firsts_eq
  case upTo =>
    by_contra hlt
    have hmem := List.mem_range.2 (Nat.not_le.1 hlt)
    rw [← hroster.firsts_eq] at hmem
    obtain ⟨c, hc, hcplace⟩ := List.mem_map.1 hmem
    exact absurd (hplace c (mem_firsts.1 hc).1) (hcplace ▸ Nat.lt_irrefl _)
  case applies =>
    intro c hc
    obtain ⟨hc, hcount⟩ := mem_firsts.1 hc
    have hlt := hplace c hc
    have hget : (goals.map fun g => waiting g s)[c.place]? = some (waiting goals[c.place] s) := by
      rw [List.getElem?_map, List.getElem?_eq_getElem hlt]
      rfl
    obtain ⟨n, hn⟩ := (hroster.own _ _ hget).exists_pull
      (List.mem_filter.2 ⟨hc, decide_eq_true rfl⟩) hcount
    cases n with
    | zero =>
      have hstuck := hreturned c hc
      rw [Call.returned, hn] at hstuck
      cases hstuck
    | succ n =>
      exact ⟨_, n, List.getElem?_eq_getElem hlt, hn.trans (pull_waiting _ s n)⟩
  case needed =>
    rw [hlogged.items]
    exact length_firsts_le hreturned

end Stream

/-- Merges serve their streams round by round, and disjunctions apply their goals as these come
up. -/
theorem merge_round_robin :
    (∀ ts, Stream.ServesInRounds ts) ∧ ∀ goals s, Stream.OpensInTurn goals s :=
  ⟨Stream.servesInRounds, Stream.opensInTurn⟩

end Goalbase

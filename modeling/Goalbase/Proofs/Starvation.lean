import Goalbase.Proofs.Returning
import Goalbase.Proofs.FairSearch

/-!
# Goalbase.Proofs.Starvation

No branch of an infinite search is starved.

`Goal.Derives g s d i` says that the choices `d` derive the item `i` from `g` and `s`: one branch of
every disjunction, and in a conjunction an item of the first goal that passes, or a live state of it
and an item of the second goal on that. A `Goal.Stocked` goal is built without empty disjunctions,
so that every one of its streams has an item; endless families and delays are allowed
(`stocked_count`, `stocked_forever`). `Goal.no_branch_starved` says that the stream of such a goal
enumerates its derivations: what can be derived is found by some pull, once for each derivation,
and nothing else is.
-/

namespace Goalbase

/-- The choices by which an item is derived. -/
inductive Trail where
  | leaf
  | branch (n : Nat) (rest : Trail)
  | passed (first : Trail)
  | followed (first second : Trail)

/-- Where an item of an endless family is found, when `own` says where it is among the items of its
own goal and `merged` where these are in the merges. -/
def Trail.place (own : Nat → Trail → Nat) (merged : Nat → Nat × Nat → Nat) : Trail → Nat → Nat
  | .branch 0 d, k => merged k (0, own k d)
  | .branch _ d, k => merged k (1, d.place own merged (k + 1))
  | _, _ => 0

/-- How many delays of an endless family a derivation goes through. -/
def Trail.delays : Trail → Nat
  | .branch 1 d => d.delays + 1
  | _ => 0

namespace Goal

/-- The choices derive the item from the goal and the state. An endless family is the disjunction of
its first goal and, delayed, of the rest. -/
inductive Derives : Goal → State → Trail → Item → Prop where
  | succeed (s : State) : Derives .succeed s .leaf (some s)
  | fail (s : State) : Derives .fail s .leaf none
  | equal (a b : Term) (s : State) : Derives (.equal a b) s .leaf (s.unify a b).value
  | constraint (c : Constraint) (s : State) : Derives (.constraint c) s .leaf (s.post c).value
  | branch {goals : List Goal} {n : Nat} {g : Goal} {s : State} {d : Trail} {i : Item}
      (hg : goals[n]? = some g) (h : Derives g s d i) : Derives (.or goals) s (.branch n d) i
  | passed {first second : Goal} {s : State} {d : Trail} {i : Item} (h : Derives first s d i)
      (hi : Stream.success? i = none) : Derives (.and first second) s (.passed d) i
  | followed {first second : Goal} {s t : State} {d e : Trail} {i : Item}
      (h : Derives first s d (some t)) (ht : t.isFaulted = false) (h' : Derives second t e i) :
      Derives (.and first second) s (.followed d e) i
  | delay {g : Goal} {s : State} {d : Trail} {i : Item} (h : Derives g s d i) :
      Derives (.delay g) s d i
  | here {family : Nat → Goal} {k : Nat} {s : State} {d : Trail} {i : Item}
      (h : Derives (family k) s d i) : Derives (.endless family k) s (.branch 0 d) i
  | further {family : Nat → Goal} {k : Nat} {s : State} {d : Trail} {i : Item}
      (h : Derives (.delay (.endless family (k + 1))) s d i) :
      Derives (.endless family k) s (.branch 1 d) i

/-- Goals without empty disjunctions. -/
inductive Stocked : Goal → Prop where
  | succeed : Stocked .succeed
  | fail : Stocked .fail
  | equal (a b : Term) : Stocked (.equal a b)
  | constraint (c : Constraint) : Stocked (.constraint c)
  | or {goals : List Goal} (hne : goals ≠ []) (h : ∀ g ∈ goals, Stocked g) : Stocked (.or goals)
  | and {first second : Goal} (h : Stocked first) (h' : Stocked second) :
      Stocked (.and first second)
  | delay {g : Goal} (h : Stocked g) : Stocked (.delay g)
  | endless {family : Nat → Goal} (h : ∀ k, Stocked (family k)) (k : Nat) :
      Stocked (.endless family k)

theorem stocked_count (t : Term) (start : Int64) : (count t start).Stocked :=
  .endless (fun _ => .equal _ _) 0

theorem stocked_forever {g : Goal} (h : g.Stocked) : (forever g).Stocked := .endless (fun _ => h) 0

variable {g first second : Goal} {goals : List Goal} {family : Nat → Goal} {s : State}
  {d : Trail} {i : Item} {k n : Nat}

/-! ## Derivations of recursive relations -/

theorem derives_delay_iff : (delay g).Derives s d i ↔ g.Derives s d i := by
  constructor
  · intro h
    cases h with
    | delay h => exact h
  · exact .delay

theorem derives_endless_iff : (endless family k).Derives s d i ↔
    (or [family k, delay (endless family (k + 1))]).Derives s d i := by
  constructor
  · intro h
    cases h with
    | here h => exact .branch rfl h
    | further h => exact .branch rfl h
  · intro h
    cases h with
    | @branch _ n _ _ _ _ hg h =>
      match n, hg with
      | 0, hg => cases hg; exact .here h
      | 1, hg => cases hg; exact .further h

theorem Derives.pair {a b a' b' : Goal} (h : (or [a, b]).Derives s d i)
    (ha : ∀ e, a.Derives s e i → a'.Derives s e i)
    (hb : ∀ e, b.Derives s e i → b'.Derives s e i) : (or [a', b']).Derives s d i := by
  cases h with
  | @branch _ n _ _ _ _ hg h =>
    match n, hg with
    | 0, hg => cases hg; exact .branch rfl (ha _ h)
    | 1, hg => cases hg; exact .branch rfl (hb _ h)

theorem derives_pair_congr {a b a' b' : Goal} (ha : ∀ e, a.Derives s e i ↔ a'.Derives s e i)
    (hb : ∀ e, b.Derives s e i ↔ b'.Derives s e i) :
    (or [a, b]).Derives s d i ↔ (or [a', b']).Derives s d i :=
  ⟨fun h => h.pair (fun e => (ha e).1) fun e => (hb e).1,
    fun h => h.pair (fun e => (ha e).2) fun e => (hb e).2⟩

/-- A family from its `n + k`-th goal on is the family that begins there, from its `k`-th goal on. -/
theorem derives_endless_shift :
    (endless family (n + k)).Derives s d i ↔ (endless (fun m => family (n + m)) k).Derives s d i := by
  induction d generalizing k with
  | leaf => exact ⟨fun h => (by cases h), fun h => (by cases h)⟩
  | passed _ _ => exact ⟨fun h => (by cases h), fun h => (by cases h)⟩
  | followed _ _ _ _ => exact ⟨fun h => (by cases h), fun h => (by cases h)⟩
  | branch m d ih =>
    constructor
    · intro h
      cases h with
      | here h => exact .here h
      | further h => exact .further (.delay (ih.1 (derives_delay_iff.1 h)))
    · intro h
      cases h with
      | here h => exact .here h
      | further h => exact .further (.delay (ih.2 (derives_delay_iff.1 h)))

/-- What comes of an endless family comes of one of its goals. -/
theorem Derives.exists_goal (h : (endless family k).Derives s d i) :
    ∃ m e, (family m).Derives s e i := by
  induction d generalizing k with
  | leaf => cases h
  | passed _ _ => cases h
  | followed _ _ _ _ => cases h
  | branch m d ih =>
    cases h with
    | here h => exact ⟨k, d, h⟩
    | further h => exact ih (derives_delay_iff.1 h)

theorem derives_forever_iff :
    (forever g).Derives s d i ↔ (or [g, delay (forever g)]).Derives s d i := by
  have hshift : ∀ e, (delay (endless (fun _ => g) (0 + 1))).Derives s e i
      ↔ (delay (forever g)).Derives s e i := by
    intro e
    rw [derives_delay_iff, derives_delay_iff, Nat.add_comm, derives_endless_shift]
    rfl
  rw [forever, derives_endless_iff]
  exact derives_pair_congr (fun _ => Iff.rfl) hshift

theorem derives_count_iff {t : Term} {start : Int64} : (count t start).Derives s d i ↔
    (or [equal t (.lit (.word start)), delay (count t (start + 1))]).Derives s d i := by
  have hfirst : start + .ofNat 0 = start := Int64.add_zero start
  have hnext : ∀ m, start + .ofNat (1 + m) = start + 1 + .ofNat m := by
    intro m
    rw [Int64.ofNat_add, Int64.add_assoc]
    rfl
  have hshift : ∀ e,
      (delay (endless (fun m => equal t (.lit (.word (start + .ofNat m)))) (0 + 1))).Derives s e i
        ↔ (delay (count t (start + 1))).Derives s e i := by
    intro e
    rw [derives_delay_iff, derives_delay_iff, Nat.add_comm, derives_endless_shift]
    simp only [hnext]
    rfl
  rw [count, derives_endless_iff, hfirst]
  exact derives_pair_congr (fun _ => Iff.rfl) hshift

/-! ## Streams of recursive relations -/

section Endless

variable (hr : ∀ k, ((family k).apply s).value.Responsive)
  (hg : ∀ k, ∃ i u, ((family k).apply s).value.Gives i u)

theorem quiet_waiting (g : Goal) (s : State) :
    Stream.Quiet 1 (.waiting g s) (g.apply s).value := .single rfl

/-- The two streams that an endless family starts. -/
def endlessBranches (family : Nat → Goal) (k : Nat) (s : State) : List Stream :=
  [.waiting (family k) s, .waiting (.delay (.endless family (k + 1))) s]

theorem quiet_further (family : Nat → Goal) (k : Nat) (s : State) :
    Stream.Quiet 2 (.waiting (.delay (.endless family (k + 1))) s)
      ((endless family (k + 1)).apply s).value :=
  .step rfl (quiet_waiting _ s)

include hr hg

theorem endless_respondsFor (n k : Nat) :
    Stream.RespondsFor n ((endless family k).apply s).value := by
  induction n generalizing k with
  | zero => trivial
  | succ n ih =>
    obtain ⟨i, u, hu⟩ := hg k
    have hfirst := (quiet_waiting (family k) s).gives_iff.2 hu
    refine .inr ⟨i, _, Stream.gives_merge hfirst, Stream.merge_respondsFor fun t ht => ?_⟩
    rcases List.mem_cons.1 ht with rfl | ht
    · exact (quiet_further family k s).respondsFor_iff.2 (ih (k + 1))
    · rw [List.mem_singleton.1 ht]
      exact ((hr k).rest hu).respondsFor n

theorem endless_responsive (k : Nat) : ((endless family k).apply s).value.Responsive :=
  Stream.responsive_of_respondsFor fun n => endless_respondsFor hr hg n k

theorem endlessBranches_responsive (k : Nat) : ∀ t ∈ endlessBranches family k s, t.Responsive := by
  intro t ht
  rcases List.mem_cons.1 ht with rfl | ht
  · exact (quiet_waiting _ s).responsive_iff.2 (hr k)
  · rw [List.mem_singleton.1 ht]
    exact (quiet_further family k s).responsive_iff.2 (endless_responsive hr hg (k + 1))

/-- What comes of the first goal is found by induction on the choices, and what is found was chosen
by induction on its position: the rest of the family gives it earlier than the merge does. -/
theorem endless_enumerates
    (hF : ∀ k, ((family k).apply s).value.Enumerates ((family k).Derives s)) (k : Nat) :
    ((endless family k).apply s).value.Enumerates ((endless family k).Derives s) := by
  have hmerge := fun k => Stream.exists_merge_place (endlessBranches_responsive hr hg k)
  choose merged hmerged hbehind using hmerge
  have hown : ∀ k, ∃ own : Trail → Nat, Stream.EnumeratesAt _ ((family k).Derives s) own := hF
  choose own hown using hown
  have hhere : ∀ {k d i}, (family k).Derives s d i →
      ∃ t, (endlessBranches family k s)[0]? = some t ∧ t.Nth (own k d) i := fun {k d i} h =>
    ⟨_, rfl, (quiet_waiting _ s).nth_iff.2 ((hown k).found d i h)⟩
  have hfound : ∀ {d k i}, (endless family k).Derives s d i →
      ((endless family k).apply s).value.Nth (d.place own merged k) i := by
    intro d
    induction d with
    | leaf => intro k i h; cases h
    | passed _ _ => intro k i h; cases h
    | followed _ _ _ _ => intro k i h; cases h
    | branch m d ih =>
      intro k i h
      cases h with
      | here h => exact (hmerged k).found (0, own k d) i (hhere h)
      | further h =>
        exact (hmerged k).found (1, _) i
          ⟨_, rfl, (quiet_further family k s).nth_iff.2 (ih (derives_delay_iff.1 h))⟩
  have hfurther : ∀ {k d i}, (endless family (k + 1)).Derives s d i →
      ∃ t, (endlessBranches family k s)[1]? = some t ∧ t.Nth (d.place own merged (k + 1)) i :=
    fun {k d i} h => ⟨_, rfl, (quiet_further family k s).nth_iff.2 (hfound h)⟩
  refine ⟨fun d => d.place own merged k, fun d i => hfound, fun n i hn => ?_⟩
  induction n using Nat.strongRecOn generalizing k with
  | ind n ih =>
    obtain ⟨⟨j, m⟩, ⟨⟨t, ht, hi⟩, hm⟩, honly⟩ := (hmerged k).unique n i hn
    match j, ht with
    | 0, ht =>
      cases ht
      obtain ⟨d, ⟨hd, rfl⟩, hdonly⟩ := (hown k).unique m i ((quiet_waiting _ s).nth_iff.1 hi)
      refine ⟨.branch 0 d, ⟨.here hd, hm⟩, fun d' hd' => ?_⟩
      obtain ⟨hd', he⟩ := hd'
      cases hd' with
      | here h =>
        have hp := honly _ ⟨hhere h, he⟩
        rw [hdonly _ ⟨h, (Prod.mk.inj hp).2⟩]
      | further h => cases honly _ ⟨hfurther (derives_delay_iff.1 h), he⟩
    | 1, ht =>
      cases ht
      obtain ⟨i₀, u, hu⟩ := hg k
      have hlt : m < n := by
        rw [← hm]
        exact hbehind k _ _ i₀ u rfl ((quiet_waiting _ s).gives_iff.2 hu) 0 m _ i rfl hi
      obtain ⟨d, ⟨hd, rfl⟩, hdonly⟩ := ih m hlt (k + 1) ((quiet_further family k s).nth_iff.1 hi)
      refine ⟨.branch 1 d, ⟨.further (.delay hd), hm⟩, fun d' hd' => ?_⟩
      obtain ⟨hd', he⟩ := hd'
      cases hd' with
      | here h => cases honly _ ⟨hhere h, he⟩
      | further h =>
        have h := derives_delay_iff.1 h
        have hp := honly _ ⟨hfurther h, he⟩
        rw [hdonly _ ⟨h, (Prod.mk.inj hp).2⟩]

end Endless

/-! ## Streams of goals -/

theorem enumerates_once {F : Trail → Item → Prop} {i : Item}
    (hF : ∀ d j, F d j ↔ d = .leaf ∧ j = i) : (Stream.once i).Enumerates F := by
  have hgives : (Stream.once i).Gives i .nil := Stream.gives_of_item rfl
  refine ⟨fun _ => 0, fun d j h => ?_, fun n j hn => ?_⟩
  · rw [((hF d j).1 h).2]
    exact .zero hgives
  · cases n with
    | zero =>
      obtain ⟨u, hu⟩ := Stream.nth_zero_iff.1 hn
      obtain ⟨rfl, -⟩ := hu.deterministic hgives
      exact ⟨.leaf, ⟨(hF _ _).2 ⟨rfl, rfl⟩, rfl⟩, fun d hd => ((hF d _).1 hd.1).1⟩
    | succ n =>
      have hrest := hgives.nth_succ_iff.1 hn
      exact absurd (Stream.ends_of_ended rfl) hrest.not_ends

/-- What is known of every stream of a goal without empty disjunctions. -/
structure Enumerated (g : Goal) (s : State) : Prop where
  responsive : (g.apply s).value.Responsive
  nonempty : ∃ i u, (g.apply s).value.Gives i u
  enumerates : (g.apply s).value.Enumerates (g.Derives s)

theorem Enumerated.exists_derives (h : Enumerated g s) : ∃ d i, g.Derives s d i := by
  obtain ⟨i, u, hu⟩ := h.nonempty
  obtain ⟨place, hplace⟩ := h.enumerates
  obtain ⟨d, ⟨hd, -⟩, -⟩ := hplace.unique 0 i (.zero hu)
  exact ⟨d, i, hd⟩

theorem enumerated_once (h : (g.apply s).value = .once i)
    (hF : ∀ d j, g.Derives s d j ↔ d = .leaf ∧ j = i) : Enumerated g s := by
  refine ⟨?_, ⟨i, .nil, ?_⟩, ?_⟩
  · rw [h]; exact Stream.once_responsive i
  · rw [h]; exact Stream.gives_of_item rfl
  · rw [h]; exact enumerates_once hF

theorem derives_branch_iff (hg : goals[n]? = some g) :
    (or goals).Derives s (.branch n d) i ↔ g.Derives s d i := by
  constructor
  · intro h
    cases h with
    | branch hg' h =>
      rw [hg] at hg'
      cases hg'
      exact h
  · exact .branch hg

theorem enumerated_or (hne : goals ≠ []) (h : ∀ g ∈ goals, Enumerated g s) :
    Enumerated (or goals) s := by
  have hmem : ∀ t ∈ goals.map (fun g => Stream.waiting g s), t.Responsive := by
    intro t ht
    obtain ⟨g, hg, rfl⟩ := List.mem_map.1 ht
    exact (quiet_waiting g s).responsive_iff.2 (h g hg).responsive
  have hbranch : ∀ (n : Nat) (t : Stream), (goals.map fun g => Stream.waiting g s)[n]? = some t →
      t.Enumerates fun d i => (or goals).Derives s (.branch n d) i := by
    intro n t ht
    rw [List.getElem?_map, Option.map_eq_some_iff] at ht
    obtain ⟨g, hg, rfl⟩ := ht
    simp only [derives_branch_iff hg]
    exact (h g (List.mem_of_getElem? hg)).enumerates.of_quiet (quiet_waiting g s)
  refine ⟨Stream.merge_responsive hmem, ?_, ?_⟩
  · obtain ⟨g, rest, rfl⟩ := List.exists_cons_of_ne_nil hne
    obtain ⟨i, u, hu⟩ := (h g List.mem_cons_self).nonempty
    exact ⟨i, _, Stream.gives_merge ((quiet_waiting g s).gives_iff.2 hu)⟩
  · refine (Stream.merge_enumerates hmem hbranch).refine
      (fun | .branch n d => (n, d) | _ => (0, .leaf)) (fun d i hd => ?_) (fun p i hp => ?_)
    · cases hd with
      | branch hg hd =>
        refine ⟨?_, .branch hg hd⟩
        rw [List.length_map]
        exact (List.getElem?_eq_some_iff.1 hg).1
    · refine ⟨.branch p.1 p.2, ⟨hp.2, rfl⟩, fun d hd => ?_⟩
      obtain ⟨hd, rfl⟩ := hd
      cases hd with
      | branch _ _ => rfl

theorem enumerated_and (h : Enumerated first s) (h' : ∀ t, Enumerated second t) :
    Enumerated (and first second) s := by
  have hsecond : ∀ t, (second.apply t).value.Responsive := fun t => (h' t).responsive
  have hjoined := Stream.bind_enumerates h.responsive hsecond h.enumerates
    fun t => (h' t).enumerates
  have hresponsive := Stream.bind_responsive h.responsive hsecond fun t => (h' t).nonempty
  refine ⟨hresponsive, ?_, ?_⟩
  · obtain ⟨d, i, hd⟩ := h.exists_derives
    obtain ⟨o, j, ho⟩ : ∃ o j, Stream.Joined (first.Derives s) second.Derives o j := by
      cases hi : Stream.success? i with
      | none => exact ⟨_, _, .passed hd hi⟩
      | some t =>
        obtain ⟨rfl, ht⟩ := success?_eq_some.1 hi
        obtain ⟨e, j, he⟩ := (h' t).exists_derives
        exact ⟨_, _, .followed hd ht he⟩
    obtain ⟨place, hplace⟩ := hjoined
    exact (hplace.found o j ho).exists_gives
  · refine hjoined.refine
      (fun | .passed d => .inl d | .followed d e => .inr (d, e) | _ => .inl .leaf)
      (fun d i hd => ?_) (fun o i ho => ?_)
    · cases hd with
      | passed hd hi => exact .passed hd hi
      | followed hd ht hd' => exact .followed hd ht hd'
    · cases ho with
      | @passed d i hd hi =>
        refine ⟨.passed d, ⟨.passed hd hi, rfl⟩, fun d' hd' => ?_⟩
        obtain ⟨hd', he⟩ := hd'
        cases hd' with
        | passed _ _ => rw [Sum.inl.inj he]
        | followed _ _ _ => cases he
      | @followed d e t i hd ht hd' =>
        refine ⟨.followed d e, ⟨.followed hd ht hd', rfl⟩, fun d' hd' => ?_⟩
        obtain ⟨hd', he⟩ := hd'
        cases hd' with
        | passed _ _ => cases he
        | followed _ _ _ => cases he; rfl

theorem enumerated_delay (h : Enumerated g s) : Enumerated (delay g) s := by
  have hq : Stream.Quiet 1 ((delay g).apply s).value (g.apply s).value := quiet_waiting g s
  refine ⟨hq.responsive_iff.2 h.responsive, ?_, ?_⟩
  · obtain ⟨i, u, hu⟩ := h.nonempty
    exact ⟨i, u, hq.gives_iff.2 hu⟩
  · exact (h.enumerates.of_quiet hq).refine id (fun d i hd => derives_delay_iff.1 hd)
      fun d i hd => ⟨d, ⟨.delay hd, rfl⟩, fun d' hd' => hd'.2⟩

theorem enumerated_endless (h : ∀ k, Enumerated (family k) s) (k : Nat) :
    Enumerated (endless family k) s := by
  have hr := fun k => (h k).responsive
  have hg := fun k => (h k).nonempty
  obtain ⟨i, u, hu⟩ := hg k
  exact ⟨endless_responsive hr hg k,
    ⟨i, _, Stream.gives_merge ((quiet_waiting _ s).gives_iff.2 hu)⟩,
    endless_enumerates hr hg (fun k => (h k).enumerates) k⟩

theorem Stocked.enumerated (h : g.Stocked) (s : State) : Enumerated g s := by
  induction h generalizing s with
  | succeed =>
    refine enumerated_once rfl fun d j => ⟨fun h => ?_, fun h => ?_⟩
    · cases h; exact ⟨rfl, rfl⟩
    · rw [h.1, h.2]; exact .succeed s
  | fail =>
    refine enumerated_once rfl fun d j => ⟨fun h => ?_, fun h => ?_⟩
    · cases h; exact ⟨rfl, rfl⟩
    · rw [h.1, h.2]; exact .fail s
  | equal a b =>
    refine enumerated_once rfl fun d j => ⟨fun h => ?_, fun h => ?_⟩
    · cases h; exact ⟨rfl, rfl⟩
    · rw [h.1, h.2]; exact .equal a b s
  | constraint c =>
    refine enumerated_once (by rw [apply_constraint]; rfl) fun d j => ⟨fun h => ?_, fun h => ?_⟩
    · cases h; exact ⟨rfl, rfl⟩
    · rw [h.1, h.2]; exact .constraint c s
  | or hne _ ih => exact enumerated_or hne fun g hg => ih g hg s
  | and _ _ ih ih' => exact enumerated_and (ih s) ih'
  | delay _ ih => exact enumerated_delay (ih s)
  | endless _ k ih => exact enumerated_endless (fun k => ih k s) k

/-- An endless family goes on for ever: every one of its goals has an item. -/
theorem endless_unending (h : ∀ k, Enumerated (family k) s) (k : Nat) :
    ((endless family k).apply s).value.Unending := by
  have hex : ∀ n k, ∃ d i, (endless family k).Derives s d i ∧ d.delays = n := by
    intro n
    induction n with
    | zero =>
      intro k
      obtain ⟨d, i, hd⟩ := (h k).exists_derives
      exact ⟨.branch 0 d, i, .here hd, rfl⟩
    | succ n ih =>
      intro k
      obtain ⟨d, i, hd, rfl⟩ := ih (k + 1)
      exact ⟨.branch 1 d, i, .further (.delay hd), rfl⟩
  refine (enumerated_endless h k).enumerates.unending_iff.2 fun hfin => ?_
  refine Set.infinite_univ ((hfin.image Trail.delays).subset fun n _ => ?_)
  obtain ⟨d, i, hd, hn⟩ := hex n k
  exact ⟨d, ⟨i, hd⟩, hn⟩

/-- Every derivation is followed to its item by some pull, no two by the same one, and every item
that a pull finds has a derivation. -/
theorem no_branch_starved (h : g.Stocked) (s : State) :
    (g.apply s).value.Enumerates (g.Derives s) := (h.enumerated s).enumerates

/-- The second number of an endless count, under the second branch of an endless conjunct. -/
theorem no_branch_starved_growing :
    (Goal.and (.count (.var (.any "x")) 0) (.forever .succeed)).Stocked ∧
      ∃ n t, State.empty.unify (.var (.any "x")) (.lit (.word 1)) = .pure (some t)
        ∧ ((Goal.and (.count (.var (.any "x")) 0) (.forever .succeed)).apply .empty).value.Nth n
          (some t) := by
  have hstocked : (Goal.and (.count (.var (.any "x")) 0) (.forever .succeed)).Stocked :=
    .and (stocked_count _ _) (stocked_forever .succeed)
  obtain ⟨place, hplace⟩ := no_branch_starved hstocked .empty
  have hcount : (count (.var (.any "x")) 0).Derives .empty (.branch 1 (.branch 0 .leaf))
      (State.empty.unify (.var (.any "x")) (.lit (.word 1))).value :=
    derives_count_iff.2 (.branch rfl (.delay (derives_count_iff.2 (.branch rfl (.equal _ _ _)))))
  have hforever : ∀ t, (forever .succeed).Derives t (.branch 1 (.branch 0 .leaf)) (some t) :=
    fun t => derives_forever_iff.2
      (.branch rfl (.delay (derives_forever_iff.2 (.branch rfl (.succeed t)))))
  exact ⟨hstocked, _, _, rfl, hplace.found _ _ (.followed hcount rfl (hforever _))⟩

end Goal

end Goalbase

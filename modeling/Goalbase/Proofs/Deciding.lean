import Goalbase.Proofs.Comparing
import Goalbase.Proofs.Ordering

/-!
# Goalbase.Proofs.Deciding

Comparisons of terms that have values.

Such a comparison is decided at once (`Constraint.post_compare`), so of the comparisons that can be
built one is accepted and the others are rejected (`Relations.accepts_iff`,
`Relations.rejects_iff`), and a conjunction of comparisons has an answer exactly if each of them
holds (`Comparison.exists_goal`). With the laws of the order this says which comparisons can be
accepted together (`Literal.coherent_of_kind`), and that integers are decided exactly
(`Literal.integers_exact`).
-/

namespace Goalbase

/-! ## Comparisons of known values -/

namespace Constraint

theorem of_mem_distinctVars {x : Var} {xs : List Var} (h : x ∈ distinctVars xs) : x ∈ xs := by
  have hfold : ∀ ys done : List Var,
      x ∈ ys.foldl (fun done y => if y ∈ done then done else done ++ [y]) done →
        x ∈ done ∨ x ∈ ys := by
    intro ys
    induction ys with
    | nil => exact fun done h => .inl h
    | cons y ys ih =>
      intro done h
      grind
  exact (hfold xs [] h).resolve_left List.not_mem_nil

/-- The constraint of a comparison. -/
def compare (handle : Handle) (a b : Term) (expected : Int64) : Constraint :=
  declare handle ([a, b, .lit (.word expected)].filterMap Term.var?)
    (.test [a, b] (Relations.compareJudge expected.toInt)) []

variable {s : State} {a b : Term} {x y : Literal} {o : Ordering}

theorem isReady_compare (ha : s.resolve a = .lit x) (hb : s.resolve b = .lit y) (handle : Handle)
    (expected : Int64) : s.isReady (compare handle a b expected) = true := by
  refine State.isReady_iff.2 fun v hv => State.hasValue_iff.2 ?_
  obtain ⟨t, ht, htv⟩ := List.mem_filterMap.1 (of_mem_distinctVars hv)
  have hvar : t = .var v := by
    cases t with
    | lit c => cases htv
    | var w => rw [Option.some.inj htv]
  simp only [List.mem_cons, List.not_mem_nil, or_false] at ht
  rcases ht with rfl | rfl | rfl
  · exact ⟨x, hvar ▸ ha⟩
  · exact ⟨y, hvar ▸ hb⟩
  · cases hvar

/-- The comparison of known values is decided at once. -/
theorem post_compare (ha : s.resolve a = .lit x) (hb : s.resolve b = .lit y)
    (ho : x.compare? y = some o) (handle : Handle) (expected : Int64) :
    (s.post (compare handle a b expected)).value =
      if signOf o = expected.toInt then
        some (s.register (compare handle a b expected) (compare handle a b expected).vars)
      else none := by
  have hjudge : Relations.compareJudge expected.toInt [.lit x, .lit y]
      = if signOf o = expected.toInt then .accept else .reject := by
    simp only [Relations.compareJudge, ho]
  rw [State.post, if_pos (isReady_compare ha hb handle expected), State.check, Traced.value_map,
    value_runWith_test rfl]
  simp only [List.map_cons, List.map_nil, State.resolve_register, ha, hb, hjudge]
  by_cases he : signOf o = expected.toInt
  · rw [if_pos he, if_pos he]
    rfl
  · rw [if_neg he, if_neg he]
    rfl

end Constraint

namespace Relations

variable {s : State} {a b c : Term} {x y z : Literal} {o : Ordering} {expected : Int64}
  {handle : Handle}

/-- The comparison can be built, and on the state its goal gives just the item. -/
def Answers (s : State) (a b : Term) (expected : Int64) (handle : Handle) (i : Item) : Prop :=
  ∀ registry serial, ∃ t g next, compare? handle a b expected = .ok t
    ∧ t.convert? registry serial = .ok (g, next) ∧ g.Yields s [i]

/-- The comparison succeeds once, without a fault and with the bindings that were there. -/
def Accepts (s : State) (a b : Term) (expected : Int64) : Prop :=
  ∀ handle, ∃ u, Answers s a b expected handle (some u) ∧ u.bindings = s.bindings
    ∧ u.fault = s.fault

def Rejects (s : State) (a b : Term) (expected : Int64) : Prop :=
  ∀ handle, Answers s a b expected handle none

theorem answers_iff {i : Item} : Answers s a b expected handle i ↔
    (-1 ≤ expected.toInt ∧ expected.toInt ≤ 1) ∧ a.kind.comparable b.kind = true
      ∧ (s.post (.compare handle a b expected)).value = i := by
  constructor
  · intro h
    obtain ⟨t, g, next, ht, hg, hyields⟩ := h .empty 0
    obtain ⟨hrange, hkinds, rfl⟩ := Tree.compare?_eq_ok.1 ht
    rw [Tree.convert?_eq] at hg
    cases hg
    rw [Goal.Yields, Goal.apply_constraint] at hyields
    exact ⟨hrange, hkinds, List.singleton_inj.1 ((Goal.drains_once _).deterministic hyields)⟩
  · rintro ⟨hrange, hkinds, rfl⟩ registry serial
    refine ⟨_, _, serial, Tree.compare?_eq_ok.2 ⟨hrange, hkinds, rfl⟩, Tree.convert?_eq _ _ _, ?_⟩
    rw [Goal.Yields, Goal.apply_constraint]
    exact Goal.drains_once _

theorem signOf_range (o : Ordering) : -1 ≤ signOf o ∧ signOf o ≤ 1 := by
  cases o <;> decide

theorem bindings_register (s : State) (c : Constraint) (xs : List Var) :
    (s.register c xs).bindings = s.bindings := by
  induction xs generalizing s with
  | nil => rfl
  | cons x xs ih => exact (ih (s.addConstraint x c)).trans (s.bindings_addConstraint x c)

section Known

variable (ha : s.resolve a = .lit x) (hb : s.resolve b = .lit y) (ho : x.compare? y = some o)
  (hk : a.kind.comparable b.kind = true)

include ha hb ho hk

/-- Of known values the comparison that their order asks for is accepted, and no other one. -/
theorem accepts_iff : Accepts s a b expected ↔ expected.toInt = signOf o := by
  constructor
  · intro h
    obtain ⟨u, hu, -⟩ := h (.built 0)
    have hpost := (answers_iff.1 hu).2.2
    rw [Constraint.post_compare ha hb ho] at hpost
    by_contra hne
    rw [if_neg (Ne.symm hne)] at hpost
    cases hpost
  · intro h handle
    have hpost := Constraint.post_compare ha hb ho handle expected
    rw [if_pos h.symm] at hpost
    exact ⟨_, answers_iff.2 ⟨h ▸ signOf_range o, hk, hpost⟩, bindings_register s _ _,
      State.fault_register s _⟩

/-- The others are rejected. -/
theorem rejects_iff : Rejects s a b expected ↔
    -1 ≤ expected.toInt ∧ expected.toInt ≤ 1 ∧ expected.toInt ≠ signOf o := by
  constructor
  · intro h
    obtain ⟨⟨hleast, hmost⟩, -, hpost⟩ := answers_iff.1 (h (.built 0))
    refine ⟨hleast, hmost, fun he => ?_⟩
    rw [Constraint.post_compare ha hb ho, if_pos he.symm] at hpost
    cases hpost
  · rintro ⟨hleast, hmost, hne⟩ handle
    refine answers_iff.2 ⟨⟨hleast, hmost⟩, hk, ?_⟩
    rw [Constraint.post_compare ha hb ho, if_neg (Ne.symm hne)]

/-- Exactly one comparison is accepted. -/
theorem existsUnique_accepts : ∃! expected, Accepts s a b expected := by
  refine ⟨Int64.ofInt (signOf o), (accepts_iff ha hb ho hk).2 (by cases o <;> rfl), fun e he => ?_⟩
  refine Int64.toInt_inj.1 (((accepts_iff ha hb ho hk).1 he).trans ?_)
  cases o <;> rfl

end Known

end Relations

/-! ## Conjunctions of comparisons -/

/-- That a term compares to another one as expected. -/
structure Comparison where
  first : Term
  second : Term
  expected : Int64

namespace Comparison

variable {s t : State} {p : Comparison} {ps : List Comparison} {o : Ordering} {g : Goal}
  {P : Prop}

/-- Both terms have values, and these have the order `o`. -/
def Settled (s : State) (p : Comparison) (o : Ordering) : Prop :=
  ∃ x y, s.resolve p.first = .lit x ∧ s.resolve p.second = .lit y ∧ x.compare? y = some o

def Holds (s : State) (p : Comparison) : Prop := ∃ o, p.Settled s o ∧ signOf o = p.expected.toInt

def constraint (handle : Handle) (p : Comparison) : Constraint :=
  .compare handle p.first p.second p.expected

/-- The tree was built for the comparison. -/
def BuiltAs (p : Comparison) (t : Tree) : Prop :=
  ∃ handle, Relations.compare? handle p.first p.second p.expected = .ok t

/-- The conjunction of the comparisons has an answer on the state. -/
def Together (s : State) (ps : List Comparison) : Prop :=
  ∃ ts, List.Forall₂ BuiltAs ps ts ∧ ∃ registry serial g next is u,
    (Tree.and ts).convert? registry serial = .ok (g, next) ∧ g.Yields s is ∧ some u ∈ is

/-- A live state in which everything has the value that it has in `s`. -/
structure Knows (s t : State) : Prop where
  resolve : ∀ d, t.resolve d = s.resolve d
  live : t.isFaulted = false

/-- The goal has one item, a state that knows as much if `P` holds and a marker otherwise. -/
def Decides (s : State) (g : Goal) (P : Prop) : Prop :=
  (P ∧ ∃ u, g.items s = [some u] ∧ Knows s u) ∨ (¬P ∧ g.items s = [none])

theorem Settled.of_knows (h : Knows s t) (hp : p.Settled s o) : p.Settled t o := by
  obtain ⟨x, y, ha, hb, ho⟩ := hp
  exact ⟨x, y, (h.resolve _).trans ha, (h.resolve _).trans hb, ho⟩

theorem Settled.holds_iff (hp : p.Settled s o) : p.Holds s ↔ signOf o = p.expected.toInt := by
  refine ⟨fun ⟨o', ⟨x, y, ha, hb, ho⟩, he⟩ => ?_, fun he => ⟨o, hp, he⟩⟩
  obtain ⟨x', y', ha', hb', ho'⟩ := hp
  cases ha.symm.trans ha'
  cases hb.symm.trans hb'
  cases ho.symm.trans ho'
  exact he

theorem Settled.decides (hs : s.isFaulted = false) (hp : p.Settled s o) (handle : Handle) :
    Decides s (.constraint (p.constraint handle)) (p.Holds s) := by
  obtain ⟨x, y, ha, hb, ho⟩ := id hp
  have hpost := Constraint.post_compare ha hb ho handle p.expected
  by_cases he : signOf o = p.expected.toInt
  · rw [if_pos he] at hpost
    refine .inl ⟨hp.holds_iff.2 he, _, congrArg (fun i => [i]) hpost, ⟨fun d => ?_, ?_⟩⟩
    · exact State.resolve_register s _ d
    · rw [State.isFaulted, State.fault_register]
      exact hs
  · rw [if_neg he] at hpost
    exact .inr ⟨fun h => he (hp.holds_iff.1 h), congrArg (fun i => [i]) hpost⟩

theorem Decides.and (h : Decides s g P) (hp : p.Settled s o) (handle : Handle) :
    Decides s (.and g (.constraint (p.constraint handle))) (P ∧ p.Holds s) := by
  have hand : (Goal.and g (.constraint (p.constraint handle))).items s
      = (g.items s).flatMap (Goal.andThen (Goal.constraint (p.constraint handle)).items) := by
    rw [Goal.items]
  rcases h with ⟨hP, t, ht, hknows⟩ | ⟨hP, ht⟩
  · have hitems := hand
    rw [ht, List.flatMap_singleton, Goal.andThen_live _ hknows.live] at hitems
    have hholds : p.Holds t ↔ p.Holds s :=
      (hp.of_knows hknows).holds_iff.trans hp.holds_iff.symm
    rcases (hp.of_knows hknows).decides hknows.live handle with ⟨hp', u, hu, hknows'⟩ | ⟨hp', hu⟩
    · refine .inl ⟨⟨hP, hholds.1 hp'⟩, u, hitems.trans hu, fun d => ?_, hknows'.live⟩
      rw [hknows'.resolve, hknows.resolve]
    · exact .inr ⟨fun h => hp' (hholds.2 h.2), hitems.trans hu⟩
  · refine .inr ⟨fun h => hP h.1, ?_⟩
    rw [hand, ht, List.flatMap_singleton]
    rfl

/-- The goal of a comparison under a handle. -/
def goal (q : Handle × Comparison) : Goal := .constraint (q.2.constraint q.1)

variable {qs : List (Handle × Comparison)}

/-- By induction on the comparisons that are left. -/
theorem Decides.foldl (h : Decides s g P) (hqs : ∀ q ∈ qs, ∃ o, q.2.Settled s o) :
    Decides s ((qs.map goal).foldl .and g) (P ∧ ∀ q ∈ qs, q.2.Holds s) := by
  induction qs generalizing g P with
  | nil => simpa using h
  | cons q qs ih =>
    obtain ⟨⟨o, hq⟩, hqs⟩ := List.forall_mem_cons.1 hqs
    have hall := ih (h.and hq q.1) hqs
    rw [and_assoc] at hall
    rw [List.forall_mem_cons]
    exact hall

theorem decides_andAll (hs : s.isFaulted = false) (hqs : ∀ q ∈ qs, ∃ o, q.2.Settled s o) :
    Decides s (.andAll (qs.map goal)) (∀ q ∈ qs, q.2.Holds s) := by
  cases qs with
  | nil => exact .inl ⟨List.forall_mem_nil _, s, rfl, ⟨fun d => rfl, hs⟩⟩
  | cons q qs =>
    obtain ⟨⟨o, hq⟩, hqs⟩ := List.forall_mem_cons.1 hqs
    rw [List.forall_mem_cons]
    exact (hq.decides hs q.1).foldl hqs

/-- Trees of comparisons convert to their constraints. -/
theorem toGoals?_built {ts : List Tree} (h : List.Forall₂ BuiltAs ps ts) (registry : Registry)
    (serial : Nat) : ∃ qs : List (Handle × Comparison), qs.map Prod.snd = ps
      ∧ Tree.toGoals? registry serial ts = .ok (qs.map goal, serial) := by
  induction h with
  | nil => exact ⟨[], rfl, rfl⟩
  | @cons p t ps ts ht _ ih =>
    obtain ⟨handle, ht⟩ := ht
    obtain ⟨-, -, rfl⟩ := Tree.compare?_eq_ok.1 ht
    obtain ⟨qs, rfl, hgs⟩ := ih
    refine ⟨(handle, p) :: qs, rfl, ?_⟩
    rw [Tree.toGoals?, Tree.custom, Tree.toGoal?]
    simp only [Tree.constraintGoal?, hgs]
    rfl

/-- The goal of a conjunction of comparisons of known values. -/
theorem exists_goal {ts : List Tree} (hs : s.isFaulted = false) (hps : ∀ p ∈ ps, ∃ o, p.Settled s o)
    (hts : List.Forall₂ BuiltAs ps ts) (registry : Registry) (serial : Nat) :
    ∃ g is, (Tree.and ts).convert? registry serial = .ok (g, serial) ∧ g.Yields s is
      ∧ ((∃ u, some u ∈ is) ↔ ∀ p ∈ ps, p.Holds s) := by
  obtain ⟨qs, rfl, hqs⟩ := toGoals?_built hts registry serial
  rw [List.forall_mem_map] at hps
  have hbuilt : ∀ g ∈ qs.map goal, g.Built fun _ => True :=
    List.forall_mem_map.2 fun q _ => .constraint trivial
  obtain ⟨is, his, hperm, -⟩ := (Goal.built_andAll hbuilt).yields s
  refine ⟨_, is, (Tree.convert?_eq _ _ _).trans (by rw [Tree.toGoal?, hqs]), his, ?_⟩
  simp only [hperm.mem_iff, List.forall_mem_map]
  rcases decides_andAll hs hps with ⟨hholds, u, hu, -⟩ | ⟨hholds, hu⟩
  · exact ⟨fun _ => hholds, fun _ => ⟨u, hu ▸ List.mem_singleton_self _⟩⟩
  · refine ⟨fun ⟨u, hmem⟩ => ?_, fun h => absurd h hholds⟩
    rw [hu] at hmem
    cases List.mem_singleton.1 hmem

/-- Only comparisons that hold are accepted together. -/
theorem Together.holds (h : Together s ps) (hs : s.isFaulted = false)
    (hps : ∀ p ∈ ps, ∃ o, p.Settled s o) : ∀ p ∈ ps, p.Holds s := by
  obtain ⟨ts, hts, registry, serial, g, next, is, u, hg, his, hu⟩ := h
  obtain ⟨g', is', hg', his', hiff⟩ := exists_goal hs hps hts registry serial
  cases hg.symm.trans hg'
  exact hiff.1 ⟨u, his.deterministic his' ▸ hu⟩

theorem together_of_holds (hs : s.isFaulted = false) (hps : ∀ p ∈ ps, p.Holds s)
    (hkinds : ∀ p ∈ ps, p.first.kind.comparable p.second.kind = true) : Together s ps := by
  have hts : ∃ ts, List.Forall₂ BuiltAs ps ts := by
    induction ps with
    | nil => exact ⟨[], .nil⟩
    | cons p ps ih =>
      obtain ⟨⟨o, -, ho⟩, hps⟩ := List.forall_mem_cons.1 hps
      obtain ⟨hk, hkinds⟩ := List.forall_mem_cons.1 hkinds
      obtain ⟨ts, hts⟩ := ih hps hkinds
      have hrange := Relations.signOf_range o
      rw [ho] at hrange
      exact ⟨_, .cons ⟨.built 0, Tree.compare?_eq_ok.2 ⟨hrange, hk, rfl⟩⟩ hts⟩
  obtain ⟨ts, hts⟩ := hts
  obtain ⟨g, is, hg, his, hiff⟩ := exists_goal hs (fun p hp => (hps p hp).imp fun o h => h.1) hts
    .empty 0
  obtain ⟨u, hu⟩ := hiff.2 hps
  exact ⟨ts, hts, .empty, 0, g, 0, is, u, hg, his, hu⟩

end Comparison

/-! ## The order of literals -/

namespace Literal

variable {a b c : Literal}

/-- What holds of the order of three literals of one kind. -/
structure Coherent (a b c : Literal) : Prop where
  defined : ∃ o, a.compare? b = some o ∧ b.compare? a = some o.swap
  le_trans : a.json.AtMost b.json → b.json.AtMost c.json → ¬a.json.Blurs b.json c.json →
    a.json.AtMost c.json
  eq_trans : a.compare? b = some .eq → b.compare? c = some .eq → ¬a.json.Blurs b.json c.json →
    a.compare? c = some .eq
  /-- Blurred integers equal what is between them, and they are ordered as the integers they are. -/
  blurred : a.json.Blurs b.json c.json → a.compare? b = some .eq ∧ b.compare? c = some .eq
    ∧ ∃ z hz hz' w hw hw', z ≠ w ∧ a.json = .number (.int z hz hz')
      ∧ c.json = .number (.int w hw hw') ∧ a.compare? c = some (Ord.compare z w)
  /-- No live state in which the values are known passes the three comparisons. -/
  chained : ∀ (s : State) (d e f : Term), s.isFaulted = false → s.resolve d = .lit a →
    s.resolve e = .lit b → s.resolve f = .lit c → ¬a.json.Blurs b.json c.json →
    ¬Comparison.Together s [⟨d, e, 0⟩, ⟨e, f, 0⟩, ⟨d, f, -1⟩]

/-- The order of literals of one kind, if it has one, is coherent but for blurred integers. -/
theorem coherent_of_kind {k : Kind} (hk : k ∈ Kind.orders) (ha : k.admits a = true)
    (hb : k.admits b = true) (hc : k.admits c = true) : a.Coherent b c := by
  have halike := Kind.alike hk ha hb hc
  obtain ⟨p, hp⟩ := halike.exists_compare?
  obtain ⟨q, hq⟩ := (Kind.alike hk hb hc ha).exists_compare?
  obtain ⟨r, hr⟩ := (Kind.alike hk ha hc hb).exists_compare?
  constructor
  case defined => exact ⟨p, hp, (Json.compare?_swap _ _).trans (by rw [hp, Option.map_some])⟩
  case le_trans => exact halike.atMost_trans
  case eq_trans => exact halike.eq_trans
  case blurred => exact Json.Blurs.compare?_eq
  case chained =>
    intro s d e f hs hd he hf hblurs htogether
    have hp' : Comparison.Settled s ⟨d, e, 0⟩ p := ⟨a, b, hd, he, hp⟩
    have hq' : Comparison.Settled s ⟨e, f, 0⟩ q := ⟨b, c, he, hf, hq⟩
    have hr' : Comparison.Settled s ⟨d, f, -1⟩ r := ⟨a, c, hd, hf, hr⟩
    have hholds := htogether.holds hs (List.forall_mem_cons.2 ⟨⟨p, hp'⟩,
      List.forall_mem_cons.2 ⟨⟨q, hq'⟩, List.forall_mem_singleton.2 ⟨r, hr'⟩⟩⟩)
    simp only [List.forall_mem_cons, hp'.holds_iff, hq'.holds_iff, hr'.holds_iff] at hholds
    obtain ⟨hpe, hqe, hre, -⟩ := hholds
    -- the first two are equalities, so the third one is too
    have hac : a.compare? c = some .eq := by
      refine halike.eq_trans ?_ ?_ hblurs
      · cases p <;> cases hpe
        exact hp
      · cases q <;> cases hqe
        exact hq
    cases hr.symm.trans hac
    cases hre

/-- `2^53`, where the integers begin that are no doubles. -/
def edge : Literal := .number (.int 9007199254740992 (by decide) (by decide))

/-- `2^53` as a double. -/
def edgeDouble : Literal :=
  .number (.double ((Binary64.nearest? false 9007199254740992 1).get (by decide +kernel)))

def pastEdge : Literal := .number (.int 9007199254740993 (by decide) (by decide))

/-- An integer below a double below the greatest integer. -/
theorem coherent_of_kind_mixed :
    let least := Literal.number (.int (-9223372036854775808) (by decide) (by decide))
    let most := Literal.number (.int 18446744073709551615 (by decide) (by decide))
    Kind.number ∈ Kind.orders ∧ Kind.number.admits least = true
      ∧ Kind.number.admits edgeDouble = true ∧ Kind.number.admits most = true
      ∧ least.Coherent edgeDouble most :=
  ⟨by decide, rfl, rfl, rfl, coherent_of_kind (k := .number) (by decide) rfl rfl rfl⟩

/-- The integer `2^53` and its successor are rounded to one double, and one conjunction accepts that
both equal it and that the one is less than the other. -/
theorem blurred_together : edge.compare? edgeDouble = some .eq
    ∧ edgeDouble.compare? pastEdge = some .eq ∧ edge.compare? pastEdge = some .lt
    ∧ Comparison.Together .empty [⟨.lit edge, .lit edgeDouble, 0⟩,
      ⟨.lit edgeDouble, .lit pastEdge, 0⟩, ⟨.lit edge, .lit pastEdge, -1⟩] := by
  have h : edge.compare? edgeDouble = some .eq := by decide +kernel
  have h' : edgeDouble.compare? pastEdge = some .eq := by decide +kernel
  have h'' : edge.compare? pastEdge = some .lt := by decide +kernel
  refine ⟨h, h', h'', Comparison.together_of_holds rfl ?_ ?_⟩
  · simp only [List.forall_mem_cons]
    exact ⟨⟨.eq, ⟨_, _, rfl, rfl, h⟩, rfl⟩, ⟨.eq, ⟨_, _, rfl, rfl, h'⟩, rfl⟩,
      ⟨.lt, ⟨_, _, rfl, rfl, h''⟩, rfl⟩, List.forall_mem_nil _⟩
  · simp only [List.forall_mem_cons]
    exact ⟨rfl, rfl, rfl, List.forall_mem_nil _⟩

/-- Integers have the order they have as numbers, whichever words hold them; and of the comparisons
of two of them just the one is accepted that this order asks for, where the others that can be built
are rejected. -/
theorem integers_exact {m n : Int} {hm hm' hn hn'} {a b : Literal}
    (ha : a.json = .number (.int m hm hm')) (hb : b.json = .number (.int n hn hn')) :
    a.compare? b = some (Ord.compare m n) ∧ ∀ s : State,
      (∃! expected, Relations.Accepts s (.lit a) (.lit b) expected)
        ∧ ∀ expected : Int64,
          (Relations.Accepts s (.lit a) (.lit b) expected
            ↔ expected.toInt = signOf (Ord.compare m n))
          ∧ (Relations.Rejects s (.lit a) (.lit b) expected
            ↔ -1 ≤ expected.toInt ∧ expected.toInt ≤ 1
              ∧ expected.toInt ≠ signOf (Ord.compare m n)) := by
  have ho : a.compare? b = some (Ord.compare m n) := by
    rw [compare?, ha, hb, Json.compare?, Number.compare_int]
  have hk : (Term.lit a).kind.comparable (Term.lit b).kind = true := by
    rw [Term.kind, Term.kind, Kind.of, Kind.of, ha, hb]
    rfl
  refine ⟨ho, fun s => ⟨?_, fun expected => ⟨?_, ?_⟩⟩⟩
  · exact Relations.existsUnique_accepts (s.resolve_lit a) (s.resolve_lit b) ho hk
  · exact Relations.accepts_iff (s.resolve_lit a) (s.resolve_lit b) ho hk
  · exact Relations.rejects_iff (s.resolve_lit a) (s.resolve_lit b) ho hk

/-- The least signed word and the greatest unsigned word, which no common word type holds. -/
theorem integers_exact_mixed :
    let least := Literal.number (.int (-9223372036854775808) (by decide) (by decide))
    let most := Literal.number (.int 18446744073709551615 (by decide) (by decide))
    least.compare? most = some .lt ∧ Relations.Accepts .empty (.lit least) (.lit most) (-1)
      ∧ Relations.Rejects .empty (.lit least) (.lit most) 0
      ∧ Relations.Rejects .empty (.lit least) (.lit most) 1 := by
  intro least most
  obtain ⟨ho, hall⟩ := integers_exact (a := least) (b := most) rfl rfl
  have hsign := (hall .empty).2
  exact ⟨ho, (hsign _).1.2 rfl, (hsign _).2.2 (by decide), (hsign _).2.2 (by decide)⟩

end Literal

end Goalbase

import Goalbase.Proofs.Converting
import Goalbase.Proofs.Mirroring
import Goalbase.Proofs.Storing

/-!
# Goalbase.Proofs.Reloading

A goal that was stored gives the answers it gave before.

A `Tree.Standard` tree is built from equalities, conjunctions, disjunctions and the relations that
come with the language. What is stored of a constraint is its name and parameters, from which the
registered constructor builds one with the same variables and the same check, but with a handle of
its own for each occurrence (`Standard.reloads`). Such constraints are steady (`Standard.steady`),
so from any state the two conversions take the same steps (`reloaded_alike`).
-/

namespace Goalbase

open Constraint

/-! ## The constraints of the standard relations -/

namespace Constraint

theorem mem_distinctVars {x : Var} {xs : List Var} (h : x ∈ xs) : x ∈ distinctVars xs := by
  have hfold : ∀ ys done : List Var, x ∈ done ∨ x ∈ ys →
      x ∈ ys.foldl (fun done y => if y ∈ done then done else done ++ [y]) done := by
    intro ys
    induction ys with
    | nil => intro done hx; exact hx.resolve_right List.not_mem_nil
    | cons y ys ih =>
      intro done hx
      rw [List.mem_cons] at hx
      refine ih _ ?_
      beta_reduce
      split
      · rename_i hy
        obtain hx | rfl | hx := hx
        · exact .inl hx
        · exact .inl hy
        · exact .inr hx
      · rw [List.mem_append, List.mem_singleton]
        tauto
  exact hfold xs [] (.inr h)

/-- A test of parameters is decided by the variables among the parameters. -/
theorem steady_declare (handle : Handle) {params terms : List Term} (h : terms ⊆ params)
    (judge : List Term → Verdict) (labels : List String) :
    (declare handle (params.filterMap Term.var?) (.test terms judge) labels).Steady := by
  refine ⟨⟨terms, judge, rfl⟩, fun s t hst => congrArg judge (List.map_congr_left fun a ha => ?_)⟩
  cases a with
  | lit v => rw [State.resolve_lit, State.resolve_lit]
  | var x =>
    have hx : x ∈ params.filterMap Term.var? := List.mem_filterMap.2 ⟨.var x, h ha, rfl⟩
    obtain ⟨v, hs, ht⟩ := hst x (mem_distinctVars hx)
    rw [State.valueOf?_eq_some.1 hs, State.valueOf?_eq_some.1 ht]

end Constraint

namespace Tree

mutual

/-- The constraints that a tree carries, in the order of its leaves. -/
def constraints : Tree → List Constraint
  | .equal _ _ => []
  | .and children => constraintsAll children
  | .or children => constraintsAll children
  | .constraint _ _ (some ⟨_, .constraint c⟩) => [c]
  | .constraint _ _ _ => []

def constraintsAll : List Tree → List Constraint
  | [] => []
  | t :: rest => constraints t ++ constraintsAll rest

end

/-- Trees of equalities, conjunctions, disjunctions and the relations of the language. -/
inductive Standard : Tree → Prop where
  | equal (a b : Term) : Standard (.equal a b)
  | and {children : List Tree} (h : ∀ t ∈ children, Standard t) : Standard (.and children)
  | or {children : List Tree} (h : ∀ t ∈ children, Standard t) : Standard (.or children)
  | notEq (handle : Handle) (a b : Term) : Standard (Relations.notEq handle a b)
  | compare {handle : Handle} {a b : Term} {expected : Int64} {t : Tree}
      (h : Relations.compare? handle a b expected = .ok t) : Standard t

theorem standard_oneOf (x : Var) (terms : List Term) : (Relations.oneOf x terms).Standard := by
  refine .or fun t ht => ?_
  obtain ⟨a, -, rfl⟩ := List.mem_map.1 ht
  exact .equal _ _

/-- A comparison that was built is a test of its first two parameters. -/
theorem compare?_eq_ok {handle : Handle} {a b : Term} {expected : Int64} {t : Tree} :
    Relations.compare? handle a b expected = .ok t ↔
      (-1 ≤ expected.toInt ∧ expected.toInt ≤ 1) ∧ a.kind.comparable b.kind = true
        ∧ t = .custom handle Relations.compareName [a, b, .lit (.word expected)]
          (.test [a, b] (Relations.compareJudge expected.toInt)) [] := by
  simp only [Relations.compare?]
  by_cases hrange : -1 ≤ expected.toInt ∧ expected.toInt ≤ 1
  · rw [if_neg (not_not.2 hrange)]
    cases a.kind.comparable b.kind with
    | true => simp [hrange, eq_comm]
    | false => simp
  · simp [hrange]

theorem buildCompare_word (handle : Handle) (a b : Term) (w : Int64) :
    Relations.buildCompare handle [a, b, .lit (.word w)] = Relations.compare? handle a b w := by
  have hw : (Literal.word w).signedWord? = some w.toInt := if_pos w.toInt_lt
  simp only [Relations.buildCompare, hw, Int64.ofInt_toInt]

theorem constraintsAll_eq (children : List Tree) :
    constraintsAll children = children.flatMap constraints := by
  induction children with
  | nil => rfl
  | cons t rest ih => rw [constraintsAll, ih, List.flatMap_cons]

theorem Standard.steady {t : Tree} (h : t.Standard) : ∀ c ∈ t.constraints, c.Steady := by
  induction h with
  | equal a b =>
    intro c hc
    cases hc
  | and _ ih =>
    intro c hc
    rw [constraints, constraintsAll_eq] at hc
    obtain ⟨t, ht, hc⟩ := List.mem_flatMap.1 hc
    exact ih t ht c hc
  | or _ ih =>
    intro c hc
    rw [constraints, constraintsAll_eq] at hc
    obtain ⟨t, ht, hc⟩ := List.mem_flatMap.1 hc
    exact ih t ht c hc
  | notEq handle a b =>
    intro c hc
    rw [List.mem_singleton.1 hc]
    exact steady_declare handle (List.Subset.refl _) _ _
  | compare h =>
    intro c hc
    obtain ⟨-, -, rfl⟩ := compare?_eq_ok.1 h
    rw [List.mem_singleton.1 hc]
    exact steady_declare _ (List.subset_append_left [_, _] _) _ _

/-! ## Reloading -/

section Reloading

variable {registry : Registry} {K : Constraint → Prop} {κ : Handle → Handle}

/-- From the serial number on, the handles stand for those of the constraints. -/
def Stands (K : Constraint → Prop) (κ : Handle → Handle) (serial : Nat) (cs : List Constraint) :
    Prop :=
  ∀ i c, cs[i]? = some c → K c ∧ κ (.rebuilt (serial + i)) = c.handle

/-- The tree and what is stored of it are converted to goals of one shape, of which the second one
has a handle of its own for each constraint. -/
def Reloads (registry : Registry) (K : Constraint → Prop) (κ : Handle → Handle) (t : Tree) : Prop :=
  ∀ serial, Stands K κ serial t.constraints → ∃ g g', (∀ m, toGoal? registry m t = .ok (g, m))
    ∧ toGoal? registry serial t.stored = .ok (g', serial + t.constraints.length)
    ∧ g.Copied K κ g'

theorem toGoals?_reloads {ts : List Tree} (h : ∀ t ∈ ts, Reloads registry K κ t) :
    ∀ serial, Stands K κ serial (constraintsAll ts) →
      ∃ gs gs', (∀ m, toGoals? registry m ts = .ok (gs, m))
        ∧ toGoals? registry serial (storedAll ts) = .ok (gs', serial + (constraintsAll ts).length)
        ∧ List.Forall₂ (Goal.Copied K κ) gs gs' := by
  induction ts with
  | nil => exact fun serial _ => ⟨[], [], fun _ => rfl, rfl, .nil⟩
  | cons t ts ih =>
    intro serial hκ
    have hfirst : Stands K κ serial t.constraints := fun i c hi => by
      have hlt : i < t.constraints.length := (List.getElem?_eq_some_iff.1 hi).1
      exact hκ i c (by rw [constraintsAll, List.getElem?_append_left hlt]; exact hi)
    have hrest : Stands K κ (serial + t.constraints.length) (constraintsAll ts) := fun i c hi => by
      rw [Nat.add_assoc]
      exact hκ _ c (by
        rw [constraintsAll, List.getElem?_append_right (Nat.le_add_right _ _),
          Nat.add_sub_cancel_left]
        exact hi)
    obtain ⟨g, g', hg, hg', hcopied⟩ := h t List.mem_cons_self serial hfirst
    obtain ⟨gs, gs', hgs, hgs', hall⟩ :=
      ih (fun u hu => h u (List.mem_cons_of_mem _ hu)) _ hrest
    refine ⟨g :: gs, g' :: gs', fun m => ?_, ?_, .cons hcopied hall⟩
    · rw [toGoals?, hg]
      simp only [hgs]
    · rw [storedAll, toGoals?, hg']
      simp only [hgs', constraintsAll, List.length_append, Nat.add_assoc]

theorem copied_andAll {gs gs' : List Goal} (h : List.Forall₂ (Goal.Copied K κ) gs gs') :
    (Goal.andAll gs).Copied K κ (Goal.andAll gs') := by
  cases h with
  | nil => exact .succeed
  | cons hg hgs => exact List.rel_foldl (fun _ _ hf _ _ hs => .and hf hs) hg hgs

/-- A constraint whose constructor builds it anew from its parameters, with another handle. -/
theorem reloads_custom {name : String} {build : Constructor}
    (hname : registry.get? name = some build) {params : List Term} {check : Check} {labels : List String}
    (hbuild : ∀ h, build h params = .ok (.custom h name params check labels)) (handle : Handle) :
    Reloads registry K κ (.custom handle name params check labels) := by
  intro serial hκ
  obtain ⟨hknown, hhandle⟩ := hκ 0 _ rfl
  refine ⟨_, .constraint (.declare (.rebuilt serial) (params.filterMap Term.var?) check labels),
    fun _ => rfl, ?_, .constraint ⟨hknown, hhandle, rfl, rfl⟩⟩
  simp only [custom, stored, toGoal?, constraintGoal?, hname, hbuild]
  rfl

theorem Standard.reloads (hnot : registry.get? Relations.notEqName = some Relations.buildNotEq)
    (hcompare : registry.get? Relations.compareName = some Relations.buildCompare) {t : Tree}
    (h : t.Standard) : Reloads registry K κ t := by
  induction h with
  | equal a b => exact fun serial _ => ⟨_, _, fun _ => rfl, rfl, .equal a b⟩
  | and _ ih =>
    intro serial hκ
    obtain ⟨gs, gs', hgs, hgs', hall⟩ := toGoals?_reloads ih serial hκ
    refine ⟨.andAll gs, .andAll gs', fun m => ?_, ?_, copied_andAll hall⟩
    · rw [toGoal?, hgs]
    · rw [stored, toGoal?, hgs']
      rfl
  | or _ ih =>
    intro serial hκ
    obtain ⟨gs, gs', hgs, hgs', hall⟩ := toGoals?_reloads ih serial hκ
    refine ⟨.or gs, .or gs', fun m => ?_, ?_, .or hall⟩
    · rw [toGoal?, hgs]
    · rw [stored, toGoal?, hgs']
      rfl
  | notEq handle a b => exact reloads_custom hnot (fun _ => rfl) handle
  | @compare handle a b expected t h =>
    obtain ⟨hrange, hkinds, rfl⟩ := compare?_eq_ok.1 h
    refine reloads_custom hcompare (fun h' => ?_) handle
    rw [buildCompare_word]
    exact compare?_eq_ok.2 ⟨hrange, hkinds, rfl⟩

end Reloading

/-! ## The same answers -/

/-- The handle of the original of a constraint that was rebuilt with a serial number from `n` on. -/
def original (t : Tree) (n : Nat) : Handle → Handle
  | .built k => .built k
  | .rebuilt k =>
    if n ≤ k then
      match t.constraints[k - n]? with
      | some c => c.handle
      | none => .rebuilt k
    else .rebuilt k

/-- The constraints of the tree and those that are pending. -/
def Shared (t : Tree) (s : State) (c : Constraint) : Prop :=
  c ∈ t.constraints ∨ ∃ x, c ∈ s.constraintsOf x

variable {t : Tree} {s : State} {n : Nat}

theorem stands_original (t : Tree) (s : State) (n : Nat) :
    Stands (t.Shared s) (t.original n) n t.constraints := by
  intro i c hi
  refine ⟨.inl (List.mem_of_getElem? hi), ?_⟩
  simp only [original, if_pos (Nat.le_add_right n i), Nat.add_sub_cancel_left, hi]

/-- Only constraints of the tree have handles for which others stand. -/
theorem exists_of_original_ne {h : Handle} (hne : t.original n h ≠ h) :
    ∃ c ∈ t.constraints, t.original n h = c.handle := by
  cases h with
  | built k => exact absurd rfl hne
  | rebuilt k =>
    simp only [original] at hne ⊢
    split at hne
    · rename_i hle
      rw [if_pos hle]
      split at hne
      · rename_i c hc
        exact ⟨c, List.mem_of_getElem? hc, rfl⟩
      · exact absurd rfl hne
    · exact absurd rfl hne

theorem sharing_original (ht : t.Standard) (hK : Consistent (t.Shared s)) :
    Sharing (t.Shared s) (t.original n) := by
  refine ⟨hK, fun {c h} hc hh hne => ?_⟩
  obtain ⟨c', hc', hh'⟩ := exists_of_original_ne (h := h) fun he => hne (he.symm.trans hh)
  obtain ⟨hvars, hcheck⟩ := hK c' c (.inl hc') hc (same_iff.2 (hh'.symm.trans hh))
  exact (ht.steady c' hc').of_same hvars hcheck

/-- A state is related to itself while no pending constraint has one of the new handles. -/
theorem copied_self (hs : s.WellFormed)
    (hfresh : ∀ x, ∀ c ∈ s.constraintsOf x, ∀ k, c.handle = .rebuilt k → k < n) :
    s.Copied (t.Shared s) (t.original n) s := by
  refine ⟨hs, rfl, rfl, fun x => ?_⟩
  have hcopies : ∀ cs seen, (∀ c ∈ cs, c ∈ s.constraintsOf x) →
      Copies (t.Shared s) (t.original n) seen cs cs := by
    intro cs
    induction cs with
    | nil => exact fun seen _ => .nil seen
    | cons c cs ih =>
      intro seen hcs
      have hc := hcs c List.mem_cons_self
      refine .both ⟨.inr ⟨x, hc⟩, ?_, rfl, rfl⟩ (ih _ fun e he => hcs e (List.mem_cons_of_mem _ he))
      cases hh : c.handle with
      | built k => rfl
      | rebuilt k => exact if_neg (Nat.not_le.2 (hfresh x c hc k hh))
  exact hcopies _ [] fun _ hc => hc

/-- Storing a tree and reading it back succeeds, so does its conversion, and from every well-formed
state, as every state is that updates lead to (`State.Updates.wellFormed`), the pulls on its stream
show the same as those on the stream of the tree itself. Constraints of one handle are one
constraint, also those that the state has pending, and no pending constraint has one of the handles
that are given out from the serial number `n` on. -/
theorem reloaded_alike {registry : Registry}
    (hnot : registry.get? Relations.notEqName = some Relations.buildNotEq)
    (hcompare : registry.get? Relations.compareName = some Relations.buildCompare)
    (ht : t.Standard) (hdoubles : t.DoublesReadBack) (hs : s.WellFormed)
    (hK : Consistent (t.Shared s))
    (hfresh : ∀ x, ∀ c ∈ s.constraintsOf x, ∀ k, c.handle = .rebuilt k → k < n) (m : Nat) :
    ∃ u g g' n', decode? t.encode = .ok u ∧ t.convert? registry m = .ok (g, m)
      ∧ u.convert? registry n = .ok (g', n')
      ∧ ∀ bounds, (g'.apply s).value.shown bounds = (g.apply s).value.shown bounds := by
  obtain ⟨g, g', hg, hg', hcopied⟩ := ht.reloads hnot hcompare n (stands_original t s n)
  have hκ := sharing_original (n := n) ht hK
  refine ⟨t.stored, g, g', n + t.constraints.length, decode?_encode hdoubles, ?_, ?_,
    fun bounds => ?_⟩
  · rw [convert?_eq, hg]
  · rw [convert?_eq, hg']
  · exact (hcopied.apply hκ (copied_self hs hfresh)).shown_eq hκ bounds

/-- One constraint twice, among others. -/
def repeated (x y : Var) : Tree :=
  .and [Relations.notEq (.built 0) x y,
    .custom (.built 2) Relations.compareName [x, y, .lit (.word 1)]
      (.test [x, y] (Relations.compareJudge 1)) [],
    Relations.notEq (.built 0) x y, Relations.oneOf x [.lit (.word 1), .lit (.word 2)],
    .equal y (.lit (.word 1))]

theorem standard_repeated (x y : Var) (h : x.kind.comparable y.kind = true) :
    (repeated x y).Standard := by
  have hcompare : Relations.compare? (.built 2) x y 1 = .ok _ :=
    compare?_eq_ok.2 ⟨by decide, h, rfl⟩
  refine .and ?_
  simp only [List.forall_mem_cons, List.not_mem_nil, false_imp_iff, implies_true, and_true]
  exact ⟨.notEq _ _ _, .compare hcompare, .notEq _ _ _, standard_oneOf _ _, .equal _ _⟩

theorem doublesReadBack_repeated (x y : Var) : (repeated x y).DoublesReadBack := by
  have hword : ∀ w : Int64,
      (Term.lit (.word w)).Numbers fun n => ∀ d, n = .double d → n.ReadsBack := fun w d hd => by cases hd
  have hpair : ∀ a ∈ [Term.var x, .var y], a.Numbers fun n => ∀ d, n = .double d → n.ReadsBack := by
    simp only [List.forall_mem_cons, List.not_mem_nil, false_imp_iff, implies_true, and_true]
    exact ⟨trivial, trivial⟩
  refine ⟨hpair, ?_, hpair, ⟨⟨trivial, hword 1⟩, ⟨trivial, hword 2⟩, trivial⟩,
    ⟨trivial, hword 1⟩, trivial⟩
  exact List.forall_mem_cons.2 ⟨trivial, List.forall_mem_cons.2 ⟨trivial,
    List.forall_mem_cons.2 ⟨hword 1, fun _ h => by cases h⟩⟩⟩

/-- A constraint of another handle is pending. -/
def pendingApart (x z : Var) : State := State.empty.addConstraint x (.apart x z)

theorem pending_pendingApart (x z : Var) : (pendingApart x z).Pending (· = .apart x z) :=
  (State.Update.register (K := (· = .apart x z)) _ x rfl).pending (State.pending_empty _)

theorem consistent_repeated (x y z : Var) :
    Consistent ((repeated x y).Shared (pendingApart x z)) := by
  have hshared : ∀ c, (repeated x y).Shared (pendingApart x z) c →
      c = .declare (.built 0) [x, y] (.test [x, y] Relations.notEqJudge) []
      ∨ c = .declare (.built 2) [x, y] (.test [x, y] (Relations.compareJudge 1)) []
      ∨ c = .apart x z := by
    rintro c (hc | ⟨w, hc⟩)
    · obtain hc | hc := List.mem_cons.1 hc
      · exact .inl hc
      · obtain hc | hc := List.mem_cons.1 hc
        · exact .inr (.inl hc)
        · exact .inl (List.mem_singleton.1 hc)
    · exact .inr (.inr (pending_pendingApart x z w c hc))
  intro c d hc hd h
  obtain rfl | rfl | rfl := hshared c hc <;> obtain rfl | rfl | rfl := hshared d hd
  · exact ⟨rfl, rfl⟩
  · cases h
  · cases h
  · cases h
  · exact ⟨rfl, rfl⟩
  · cases h
  · cases h
  · cases h
  · exact ⟨rfl, rfl⟩

/-- What is stored of the repeated constraint is read back as two. -/
theorem reloaded_alike_repeated :
    ∃ u g g' n', decode? (repeated (.any "x") (.any "y")).encode = .ok u
      ∧ (repeated (.any "x") (.any "y")).convert? (.standardWith []) 0 = .ok (g, 0)
      ∧ u.convert? (.standardWith []) 0 = .ok (g', n')
      ∧ ∀ bounds, (g'.apply (pendingApart (.any "x") (.any "z"))).value.shown bounds
        = (g.apply (pendingApart (.any "x") (.any "z"))).value.shown bounds := by
  have hnot : (Registry.standardWith []).get? Relations.notEqName = some Relations.buildNotEq := rfl
  have hcompare : (Registry.standardWith []).get? Relations.compareName
      = some Relations.buildCompare := rfl
  have hs : (pendingApart (.any "x") (.any "z")).WellFormed := State.wellFormed_empty.congr rfl
  refine reloaded_alike hnot hcompare (standard_repeated _ _ rfl) (doublesReadBack_repeated _ _) hs
    (consistent_repeated _ _ _) (fun w c hc k hk => ?_) 0
  rw [pending_pendingApart _ _ w c hc] at hk
  cases hk

end Tree

end Goalbase

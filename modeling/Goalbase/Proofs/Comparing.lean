import Goalbase.Proofs.Kinds
import Goalbase.Proofs.Reloading

/-!
# Goalbase.Proofs.Comparing

Comparisons whose kinds are known never fault.

A comparison is refused when it is built unless the kinds of its terms are comparable. Apart from
`any`, comparable kinds admit only literals that have an order (`Kind.exists_compare?`), and a
variable is only ever given a literal of its kind, so the check of such a comparison does not fault in
any state in which it is ready (`faultless_compare`). A state in which only such constraints are
pending is faulted by no unification, however the checks it wakes are nested (`unifyFully_calm`), and
so by no goal built from them (`Goal.Built.live_of_item`). What is read back of a literal is of the
same kind, whatever becomes of its digits, so all of this holds of the goals of stored trees too
(`comparisons_never_fault`).
-/

namespace Goalbase

/-! ## Kinds with an order -/

namespace Kind

theorem eq_or_number_of_admits {k : Kind} (hk : k ≠ any) {a : Literal} (h : k.admits a = true) :
    k = of a ∨ (k = number ∧ (of a).isNumeric = true) := by
  cases k with
  | any => exact absurd rfl hk
  | number => exact .inr ⟨rfl, h⟩
  | _ => exact .inl (beq_iff_eq.1 h)

theorem comparable_of_isNumeric {k l : Kind} (hk : k.isNumeric = true) (hl : l.isNumeric = true) :
    k.comparable l = true := by
  cases k <;> cases hk <;> cases l <;> cases hl <;> rfl

theorem isNumeric_of_comparable {k : Kind} (hk : k ≠ any)
    (h : k.comparable number = true ∨ number.comparable k = true) : k.isNumeric = true := by
  cases k with
  | any => exact absurd rfl hk
  | integer => rfl
  | float => rfl
  | number => rfl
  | _ => rcases h with h | h <;> cases h

/-- Comparable kinds admit only literals whose own kinds are comparable. -/
theorem comparable_of {k l : Kind} (hk : k ≠ any) (hl : l ≠ any) (h : k.comparable l = true)
    {a b : Literal} (ha : k.admits a = true) (hb : l.admits b = true) :
    (of a).comparable (of b) = true := by
  rcases eq_or_number_of_admits hk ha with rfl | ⟨rfl, ha⟩ <;>
    rcases eq_or_number_of_admits hl hb with rfl | ⟨rfl, hb⟩
  · exact h
  · exact comparable_of_isNumeric (isNumeric_of_comparable hk (.inl h)) hb
  · exact comparable_of_isNumeric ha (isNumeric_of_comparable hl (.inr h))
  · exact comparable_of_isNumeric ha hb

/-- Literals of comparable sorts have an order. -/
theorem exists_compare?_json {x y : Json} (h : (ofJson x).comparable (ofJson y) = true) :
    ∃ o, x.compare? y = some o := by
  cases x <;> cases y <;> first
    | exact ⟨_, rfl⟩
    | (simp only [ofJson] at h
       first
        | cases h
        | (split at h <;> cases h))

theorem of_ne_any (a : Literal) : of a ≠ any := by
  simp only [of]
  cases a.json with
  | number n =>
    simp only [ofJson]
    split
    · decide
    · decide
  | _ => exact fun h => by cases h

theorem admits_of (a : Literal) : (of a).admits a = true := by
  cases h : of a <;> simp [admits, h, isNumeric]

theorem exists_compare? {k l : Kind} (hk : k ≠ any) (hl : l ≠ any) (h : k.comparable l = true)
    {a b : Literal} (ha : k.admits a = true) (hb : l.admits b = true) :
    ∃ o, a.compare? b = some o :=
  exists_compare?_json (comparable_of hk hl h ha hb)

end Kind

/-! ## Checks that do not fault -/

/-- A term that is no variable of kind `any`. -/
def Term.KindKnown (a : Term) : Prop := ∀ x, a = .var x → x.kind ≠ .any

theorem Term.KindKnown.kind_ne {a : Term} (h : a.KindKnown) : a.kind ≠ .any := by
  cases a with
  | lit a => exact Kind.of_ne_any a
  | var x => exact h x rfl

/-- The test of the constraint does not fault where the constraint is ready. -/
def Constraint.Faultless (c : Constraint) : Prop :=
  ∀ s : State, s.WellFormed → s.isReady c = true → ∀ terms judge reason,
    c.check = .test terms judge → judge (terms.map s.resolve) ≠ .fault reason

namespace Constraint

variable {params : List Term} {s : State}

/-- A parameter resolves to a literal of its kind where the constraint is ready. -/
theorem exists_literal {handle : Handle} {check : Check} {labels : List String} (hs : s.WellFormed)
    (hr : s.isReady (declare handle (params.filterMap Term.var?) check labels) = true) {a : Term}
    (ha : a ∈ params) : ∃ v, s.resolve a = .lit v ∧ a.kind.admits v = true := by
  cases a with
  | lit v => exact ⟨v, State.resolve_lit s v, Kind.admits_of v⟩
  | var x =>
    have hx : x ∈ params.filterMap Term.var? := List.mem_filterMap.2 ⟨.var x, ha, rfl⟩
    obtain ⟨v, hv⟩ := State.hasValue_iff.1 (State.isReady_iff.1 hr x (mem_distinctVars hx))
    have hfits := hs.fits_resolve x
    rw [hv] at hfits
    exact ⟨v, hv, hfits⟩

theorem faultless_notEq (handle : Handle) (a b : Term) (vars : List Var) (labels : List String) :
    (declare handle vars (.test [a, b] Relations.notEqJudge) labels).Faultless := by
  intro s _ _ terms judge reason hcheck
  cases hcheck
  rw [List.map_cons, List.map_cons, List.map_nil]
  cases s.resolve a with
  | var x => exact fun h => by cases h
  | lit v =>
    cases s.resolve b with
    | var y => exact fun h => by cases h
    | lit w =>
      simp only [Relations.notEqJudge]
      split
      · exact fun h => by cases h
      · exact fun h => by cases h

/-- A comparison of terms of known, comparable kinds. -/
theorem faultless_compare {handle : Handle} {a b : Term} {labels : List String} (expected : Int)
    (ha : a.KindKnown) (hb : b.KindKnown) (h : a.kind.comparable b.kind = true)
    (hparams : [a, b] ⊆ params) :
    (declare handle (params.filterMap Term.var?) (.test [a, b] (Relations.compareJudge expected))
      labels).Faultless := by
  intro s hs hr terms judge reason hcheck
  obtain ⟨v, hv, hav⟩ := exists_literal hs hr (hparams List.mem_cons_self)
  obtain ⟨w, hw, hbw⟩ := exists_literal hs hr (hparams (List.mem_cons_of_mem _ List.mem_cons_self))
  obtain ⟨o, ho⟩ := Kind.exists_compare? ha.kind_ne hb.kind_ne h hav hbw
  cases hcheck
  simp only [List.map_cons, List.map_nil, hv, hw, Relations.compareJudge, ho]
  split
  · exact fun h => by cases h
  · exact fun h => by cases h

end Constraint

/-! ## Searches without faults -/

namespace State

/-- A live state in which only faultless constraints are pending. -/
structure Calm (s : State) : Prop where
  wellFormed : s.WellFormed
  pending : s.Pending Constraint.Faultless
  live : s.isFaulted = false

variable {s t : State}

theorem calm_empty : empty.Calm := ⟨wellFormed_empty, pending_empty _, rfl⟩

theorem Calm.of_update (h : s.Calm) (hst : Update Constraint.Faultless s t)
    (hfault : t.fault = s.fault) : t.Calm :=
  ⟨hst.wellFormed h.wellFormed, hst.pending h.pending, by
    rw [isFaulted, hfault]
    exact h.live⟩

theorem Calm.register (h : s.Calm) {c : Constraint} (hc : c.Faultless) (xs : List Var) :
    (s.register c xs).Calm := by
  induction xs generalizing s with
  | nil => exact h
  | cons x xs ih => exact ih (h.of_update (.register s x hc) (fault_addConstraint s x c))

end State

/-- From a calm state the unifier reaches only calm states. -/
def Unifier.Calm (unify : Unifier) : Prop :=
  ∀ ⦃s t d e⦄, s.Calm → (unify s d e).value = .reached t → t.Calm

namespace Unifier.Calm

open State

variable {nested : Unifier} (hcalm : nested.Calm) {s t : State}

include hcalm

theorem pairs {pairs : List (Term × Term)} (hs : s.Calm)
    (h : (nested.pairs pairs s).value = .reached t) : t.Calm := by
  induction pairs generalizing s with
  | nil => cases h; exact hs
  | cons p rest ih =>
    obtain ⟨u, hu, h⟩ := pairs_cons_reached.1 h
    exact ih (hcalm hs hu) h

theorem runWith {c : Constraint} (hc : c.Faultless) (hr : s.isReady c = true) (hs : s.Calm)
    (h : (c.runWith nested s).value = .reached t) : t.Calm := by
  cases hcheck : c.check with
  | test terms judge =>
    rw [value_runWith_test hcheck] at h
    split at h
    · cases h; exact hs
    · cases h
    · rename_i reason hreason
      exact absurd hreason (hc s hs.wellFormed hr terms judge reason hcheck)
  | unify pairs =>
    rw [value_runWith_unify hcheck] at h
    exact hcalm.pairs hs h

variable (hn : nested.Updating)

include hn

theorem wake {cs : List Constraint} (hcs : ∀ c ∈ cs, c.Faultless ∧ s.isReady c = true)
    (hs : s.Calm) (h : (nested.wake cs s).value = .reached t) : t.Calm := by
  induction cs generalizing s with
  | nil => cases h; exact hs
  | cons c cs ih =>
    obtain ⟨⟨hc, hr⟩, hcs⟩ := List.forall_mem_cons.1 hcs
    obtain ⟨u, hu, h⟩ := (wake_cons_reached hs.live).1 h
    have hsu : Updates Constraint.Faultless s u := hn.runWith hs.wellFormed hu
    -- what was ready when it was woken is ready when its turn comes
    have hready : ∀ d ∈ cs, d.Faultless ∧ u.isReady d = true := fun d hd =>
      ⟨(hcs d hd).1, (hsu.extends hs.wellFormed).isReady (hcs d hd).2⟩
    exact ih hready (hcalm.runWith hc hr hs hu) h

theorem unifyWith : Calm (State.unifyWith nested) := by
  intro s t d e hs h
  have hcase := unifyWith_cases nested hs.live d e
  generalize State.unifyWith nested s d e = o at h hcase
  cases hcase with
  | equal _ => cases h; exact hs
  | clash _ => cases h
  | @point x y hpq hne hk =>
    cases h
    have hx := hpq.free hs.wellFormed.acyclic
    have hy := hpq.swap.free hs.wellFormed.acyclic
    exact hs.of_update (.point hx hy hne hk) (fault_pointAt s x y)
  | @assign x a hpq ha =>
    have hb : (s.bind x (.lit a)).Calm :=
      hs.of_update (.assign (hpq.free hs.wellFormed.acyclic) ha) rfl
    have hwoken : ∀ c ∈ (s.bind x (.lit a)).woken x,
        c.Faultless ∧ (s.bind x (.lit a)).isReady c = true := fun c hc =>
      ⟨hs.pending x c (List.mem_filter.1 hc).1, (List.mem_filter.1 hc).2⟩
    exact wake hcalm hn hwoken hb h

end Unifier.Calm

namespace State

theorem unifyAt_calm (depth : Nat) : Unifier.Calm (unifyAt depth) := by
  induction depth with
  | zero => exact Unifier.Calm.unifyWith (fun _ _ _ _ _ h => by cases h) exhausted_updating
  | succ depth ih => exact ih.unifyWith (unifyAt_updating depth)

theorem unifyFully_calm : Unifier.Calm unifyFully := fun _ _ _ _ hs h => unifyAt_calm _ hs h

variable {s t : State}

theorem Calm.post (h : s.Calm) {c : Constraint} (hc : c.Faultless)
    (ht : (s.post c).value = some t) : t.Calm := by
  have hcalm := h.register hc c.vars
  simp only [State.post] at ht
  split at ht
  · rename_i hr
    rw [← isReady_register (c := c) s c.vars] at hr
    exact unifyFully_calm.runWith hc hr hcalm (check_eq_some.1 ht)
  · cases ht
    exact hcalm

end State

namespace Goal

variable {g : Goal} {s t : State}

/-- A goal of faultless constraints leads from calm states to calm states. -/
theorem Built.calm_of_item (hg : g.Built Constraint.Faultless) (hs : s.Calm)
    (h : some t ∈ g.items s) : t.Calm := by
  induction hg generalizing s t with
  | succeed =>
    cases List.mem_singleton.1 h
    exact hs
  | fail => cases List.mem_singleton.1 h
  | equal d e =>
    exact State.unifyFully_calm hs (State.unify_eq_some.1 (List.mem_singleton.1 h).symm)
  | constraint hc => exact hs.post hc (List.mem_singleton.1 h).symm
  | or _ ih =>
    rw [items, itemsAny_eq] at h
    obtain ⟨goal, hgoal, h⟩ := List.mem_flatMap.1 h
    exact ih goal hgoal hs h
  | and _ _ ih ih' =>
    rw [items] at h
    obtain ⟨i, hi, h⟩ := List.mem_flatMap.1 h
    cases i with
    | none => cases List.mem_singleton.1 h
    | some u =>
      have hu := ih hs hi
      rw [andThen_live _ hu.live] at h
      exact ih' hu h

/-- The stream of the goal on the empty state ends without a faulted item. -/
def NeverFaults (g : Goal) : Prop :=
  ∃ is, Stream.Drains g.run.value is ∧ ∀ s, some s ∈ is → s.isFaulted = false

theorem Built.neverFaults (hg : g.Built Constraint.Faultless) : g.NeverFaults := by
  obtain ⟨is, his, hperm, -⟩ := hg.yields .empty
  exact ⟨is, his, fun s hs => (hg.calm_of_item State.calm_empty (hperm.mem_iff.1 hs)).live⟩

end Goal

/-! ## Trees of known kinds -/

namespace Tree

/-- Trees of equalities, conjunctions, disjunctions and the relations of the language in which no
comparison has a variable of kind `any` as an operand. -/
inductive KindsKnown : Tree → Prop where
  | equal (a b : Term) : KindsKnown (.equal a b)
  | and {children : List Tree} (h : ∀ t ∈ children, KindsKnown t) : KindsKnown (.and children)
  | or {children : List Tree} (h : ∀ t ∈ children, KindsKnown t) : KindsKnown (.or children)
  | notEq (handle : Handle) (a b : Term) : KindsKnown (Relations.notEq handle a b)
  | compare {handle : Handle} {a b : Term} {expected : Int64} {t : Tree} (ha : a.KindKnown)
      (hb : b.KindKnown) (h : Relations.compare? handle a b expected = .ok t) : KindsKnown t

theorem kindsKnown_oneOf (x : Var) (terms : List Term) : (Relations.oneOf x terms).KindsKnown := by
  refine .or fun t ht => ?_
  obtain ⟨a, -, rfl⟩ := List.mem_map.1 ht
  exact .equal _ _

/-- The tree is converted to a goal of faultless constraints. -/
def Converts (registry : Registry) (t : Tree) : Prop :=
  ∀ n, ∃ g m, toGoal? registry n t = .ok (g, m) ∧ g.Built Constraint.Faultless

section Converts

variable {registry : Registry}

theorem toGoals?_converts {ts : List Tree} (h : ∀ t ∈ ts, Converts registry t) (n : Nat) :
    ∃ gs m, toGoals? registry n ts = .ok (gs, m) ∧ ∀ g ∈ gs, g.Built Constraint.Faultless := by
  induction ts generalizing n with
  | nil => exact ⟨[], n, rfl, fun _ hg => by cases hg⟩
  | cons t ts ih =>
    obtain ⟨ht, hts⟩ := List.forall_mem_cons.1 h
    obtain ⟨g, m, hg, hbuilt⟩ := ht n
    obtain ⟨gs, m', hgs, hall⟩ := ih hts m
    refine ⟨g :: gs, m', ?_, List.forall_mem_cons.2 ⟨hbuilt, hall⟩⟩
    rw [toGoals?, hg]
    simp only [hgs]

theorem converts_and {children : List Tree} (h : ∀ t ∈ children, Converts registry t) :
    Converts registry (.and children) := by
  intro n
  obtain ⟨gs, m, hgs, hall⟩ := toGoals?_converts h n
  exact ⟨.andAll gs, m, by rw [toGoal?, hgs], Goal.built_andAll hall⟩

theorem converts_or {children : List Tree} (h : ∀ t ∈ children, Converts registry t) :
    Converts registry (.or children) := by
  intro n
  obtain ⟨gs, m, hgs, hall⟩ := toGoals?_converts h n
  exact ⟨.or gs, m, by rw [toGoal?, hgs], .or hall⟩

/-- A constraint that was built converts to it, and what is stored of it to one built anew. -/
theorem converts_custom {name : String} {build : Constructor}
    (hname : registry.get? name = some build) {params : List Term} {check : Check}
    (hbuild : ∀ h, build h params = .ok (.custom h name params check []))
    (hfaultless : ∀ h, (Constraint.declare h (params.filterMap Term.var?) check []).Faultless)
    (handle : Handle) :
    Converts registry (.custom handle name params check [])
      ∧ Converts registry (Tree.custom handle name params check []).stored := by
  constructor
  · exact fun n => ⟨_, n, rfl, .constraint (hfaultless handle)⟩
  · intro n
    refine ⟨_, n + 1, ?_, .constraint (hfaultless (.rebuilt n))⟩
    simp only [custom, stored, toGoal?, constraintGoal?, hname, hbuild]

theorem storedAll_eq_map (ts : List Tree) : storedAll ts = ts.map stored := by
  induction ts with
  | nil => rfl
  | cons t ts ih => rw [storedAll, ih, List.map_cons]

/-- A tree of known kinds and what is stored of it convert to goals of faultless constraints. -/
theorem KindsKnown.converts (hnot : registry.get? Relations.notEqName = some Relations.buildNotEq)
    (hcompare : registry.get? Relations.compareName = some Relations.buildCompare) {t : Tree}
    (h : t.KindsKnown) : Converts registry t ∧ Converts registry t.stored := by
  have hstored : ∀ {ts : List Tree}, (∀ t ∈ ts, Converts registry t ∧ Converts registry t.stored) →
      ∀ t ∈ storedAll ts, Converts registry t := by
    intro ts h t ht
    rw [storedAll_eq_map] at ht
    obtain ⟨u, hu, rfl⟩ := List.mem_map.1 ht
    exact (h u hu).2
  induction h with
  | equal a b => exact ⟨fun n => ⟨_, n, rfl, .equal a b⟩, fun n => ⟨_, n, rfl, .equal a b⟩⟩
  | and _ ih => exact ⟨converts_and fun t ht => (ih t ht).1, converts_and (hstored ih)⟩
  | or _ ih => exact ⟨converts_or fun t ht => (ih t ht).1, converts_or (hstored ih)⟩
  | notEq handle a b =>
    exact converts_custom hnot (fun _ => rfl)
      (fun h => Constraint.faultless_notEq h a b _ _) handle
  | @compare handle a b expected t ha hb h =>
    obtain ⟨hrange, hkinds, rfl⟩ := compare?_eq_ok.1 h
    have hparams : [a, b] ⊆ [a, b, .lit (.word expected)] := List.subset_append_left [a, b] _
    refine converts_custom hcompare (fun h' => ?_)
      (fun h' => Constraint.faultless_compare _ ha hb hkinds hparams) handle
    rw [buildCompare_word]
    exact compare?_eq_ok.2 ⟨hrange, hkinds, rfl⟩

end Converts

end Tree

/-! ## Known kinds in trees that were read back -/

theorem Kind.ofJson_reread? {j k : Json} (h : j.reread? = some k) : ofJson k = ofJson j := by
  cases j with
  | number n =>
    obtain ⟨m, hm, rfl⟩ := Option.map_eq_some_iff.1 h
    simp only [ofJson, Number.isInteger_reread? hm]
  | array js =>
    obtain ⟨ks, -, rfl⟩ := Option.map_eq_some_iff.1 h
    rfl
  | object ms =>
    obtain ⟨ks, -, rfl⟩ := Option.map_eq_some_iff.1 h
    rfl
  | _ =>
    cases h
    rfl

namespace Term

/-- A term is read as one of the same kind, and a variable as itself. -/
theorem kind_reread? {a b : Term} (h : a.reread? = some b) :
    b.kind = a.kind ∧ (a.KindKnown → b.KindKnown) := by
  cases a with
  | lit a =>
    obtain ⟨c, hc, rfl⟩ := Option.map_eq_some_iff.1 h
    have hjson : a.json.reread? = some c.json := by rw [a.json_reread?, hc]; rfl
    exact ⟨Kind.ofJson_reread? hjson, fun _ x hx => by cases hx⟩
  | var x =>
    cases h
    exact ⟨rfl, id⟩

theorem rereadAll?_cons {a : Term} {as bs : List Term} (h : rereadAll? (a :: as) = some bs) :
    ∃ b bs', a.reread? = some b ∧ rereadAll? as = some bs' ∧ bs = b :: bs' := by
  simp only [rereadAll?] at h
  split at h
  · rename_i b bs' hb hbs
    cases h
    exact ⟨b, bs', hb, hbs, rfl⟩
  · cases h

theorem reread?_word (w : Int64) : (Term.lit (.word w)).reread? = some (.lit (.word w)) := by
  have hjson : (Literal.word w).json.reread? = some (Literal.word w).json :=
    Json.reread?_legible (.number _) (Number.legible_int _ _ _)
  rw [reread?, Literal.reread?, hjson, Option.map_some, Literal.ofJson_json]
  rfl

end Term

namespace Tree

theorem rereadAll?_cons {t : Tree} {ts us : List Tree} (h : rereadAll? (t :: ts) = some us) :
    ∃ u us', t.reread? = some u ∧ rereadAll? ts = some us' ∧ us = u :: us' := by
  simp only [rereadAll?] at h
  split at h
  · rename_i u us' hu hus
    cases h
    exact ⟨u, us', hu, hus, rfl⟩
  · cases h

/-- What is stored of the tree is what is stored of a tree of known kinds. -/
def StoredKnown (u : Tree) : Prop := ∃ t : Tree, t.KindsKnown ∧ u.stored = t.stored

theorem storedKnown_all {ts us : List Tree}
    (h : ∀ t ∈ ts, ∀ {u}, t.reread? = some u → u.StoredKnown) (hus : rereadAll? ts = some us) :
    ∃ ts' : List Tree, (∀ t ∈ ts', t.KindsKnown) ∧ storedAll us = storedAll ts' := by
  induction ts generalizing us with
  | nil =>
    cases hus
    exact ⟨[], fun t ht => (by cases ht), rfl⟩
  | cons t ts ih =>
    obtain ⟨u, us', hu, hus', rfl⟩ := rereadAll?_cons hus
    obtain ⟨ht, hts⟩ := List.forall_mem_cons.1 h
    obtain ⟨t', ht', hstored⟩ := ht hu
    obtain ⟨ts', hts', hall⟩ := ih hts hus'
    exact ⟨t' :: ts', List.forall_mem_cons.2 ⟨ht', hts'⟩, by rw [storedAll, storedAll, hstored, hall]⟩

/-- What a tree of known kinds is read as is stored like one. -/
theorem KindsKnown.storedKnown {t u : Tree} (h : t.KindsKnown) (hu : t.reread? = some u) :
    u.StoredKnown := by
  induction h generalizing u with
  | equal a b =>
    simp only [reread?] at hu
    split at hu
    · cases hu
      exact ⟨_, .equal _ _, rfl⟩
    · cases hu
  | and _ ih =>
    obtain ⟨us, hus, rfl⟩ := Option.map_eq_some_iff.1 hu
    obtain ⟨ts, hts, hall⟩ := storedKnown_all (fun t ht _ => ih t ht) hus
    exact ⟨.and ts, .and hts, by rw [stored, stored, hall]⟩
  | or _ ih =>
    obtain ⟨us, hus, rfl⟩ := Option.map_eq_some_iff.1 hu
    obtain ⟨ts, hts, hall⟩ := storedKnown_all (fun t ht _ => ih t ht) hus
    exact ⟨.or ts, .or hts, by rw [stored, stored, hall]⟩
  | notEq handle a b =>
    obtain ⟨ps, hps, rfl⟩ := Option.map_eq_some_iff.1 hu
    obtain ⟨c, qs, -, hqs, rfl⟩ := Term.rereadAll?_cons hps
    obtain ⟨d, rs, -, hrs, rfl⟩ := Term.rereadAll?_cons hqs
    cases hrs
    exact ⟨Relations.notEq handle c d, .notEq handle c d, rfl⟩
  | @compare handle a b expected t ha hb h =>
    obtain ⟨hrange, hkinds, rfl⟩ := compare?_eq_ok.1 h
    obtain ⟨ps, hps, rfl⟩ := Option.map_eq_some_iff.1 hu
    obtain ⟨c, qs, hc, hqs, rfl⟩ := Term.rereadAll?_cons hps
    obtain ⟨d, rs, hd, hrs, rfl⟩ := Term.rereadAll?_cons hqs
    obtain ⟨e, none, he, hnone, rfl⟩ := Term.rereadAll?_cons hrs
    cases hnone
    rw [Term.reread?_word] at he
    cases he
    obtain ⟨hck, hc⟩ := Term.kind_reread? hc
    obtain ⟨hdk, hd⟩ := Term.kind_reread? hd
    rw [← hck, ← hdk] at hkinds
    have hbuilt : Relations.compare? handle c d expected = .ok _ :=
      compare?_eq_ok.2 ⟨hrange, hkinds, rfl⟩
    exact ⟨_, .compare (hc ha) (hd hb) hbuilt, rfl⟩

/-- No item of the goal of the tree is faulted, neither as the tree was built nor after it was stored
and converted again. -/
theorem comparisons_never_fault {registry : Registry}
    (hnot : registry.get? Relations.notEqName = some Relations.buildNotEq)
    (hcompare : registry.get? Relations.compareName = some Relations.buildCompare) {t : Tree}
    (ht : t.KindsKnown) :
    (∀ n, ∃ g m, t.convert? registry n = .ok (g, m) ∧ g.NeverFaults)
      ∧ ∀ u, decode? t.encode = .ok u →
        ∀ n, ∃ g m, u.convert? registry n = .ok (g, m) ∧ g.NeverFaults := by
  have hconverts : ∀ {u : Tree}, Converts registry u →
      ∀ n, ∃ g m, u.convert? registry n = .ok (g, m) ∧ g.NeverFaults := by
    intro u hu n
    obtain ⟨g, m, hg, hbuilt⟩ := hu n
    exact ⟨g, m, (convert?_eq registry n u).trans hg, hbuilt.neverFaults⟩
  refine ⟨hconverts (ht.converts hnot hcompare).1, fun u hu => ?_⟩
  rw [decode?_encode_eq] at hu
  split at hu
  · rename_i v hv
    cases hu
    obtain ⟨t', ht', hstored⟩ := ht.storedKnown hv
    rw [hstored]
    exact hconverts (ht'.converts hnot hcompare).2
  · cases hu

/-- An integer below a number that is an alias of a variable of kind `any`, which is given a text and
a word. -/
def ordered (x y w : Var) : Tree :=
  .and [.equal y w,
    .custom (.built 0) Relations.compareName [x, y, .lit (.word (-1))]
      (.test [x, y] (Relations.compareJudge (-1))) [],
    Relations.oneOf w [.lit (.string "a"), .lit (.word 2)], .equal x (.lit (.word 1))]

theorem kindsKnown_ordered (x y w : Var) (hx : x.kind = .integer) (hy : y.kind = .number) :
    (ordered x y w).KindsKnown := by
  have hknown : Term.KindKnown x ∧ Term.KindKnown y :=
    ⟨fun z hz => by cases hz; rw [hx]; decide, fun z hz => by cases hz; rw [hy]; decide⟩
  have hkinds : (Term.var x).kind.comparable (Term.var y).kind = true := by
    simp only [Term.kind, hx, hy]
    rfl
  have hcompare : Relations.compare? (.built 0) x y (-1) = .ok _ :=
    compare?_eq_ok.2 ⟨by decide, hkinds, rfl⟩
  refine .and ?_
  simp only [List.forall_mem_cons, List.not_mem_nil, false_imp_iff, implies_true, and_true]
  exact ⟨.equal _ _, .compare hknown.1 hknown.2 hcompare, kindsKnown_oneOf _ _, .equal _ _⟩

theorem doublesReadBack_ordered (x y w : Var) : (ordered x y w).DoublesReadBack := by
  have hword : ∀ v : Int64,
      (Term.lit (.word v)).Numbers fun n => ∀ d, n = .double d → n.ReadsBack := fun v d hd => by cases hd
  have hparams : ∀ a ∈ [Term.var x, .var y, .lit (.word (-1))],
      a.Numbers fun n => ∀ d, n = .double d → n.ReadsBack := by
    simp only [List.forall_mem_cons, List.not_mem_nil, false_imp_iff, implies_true, and_true]
    exact ⟨trivial, trivial, hword _⟩
  exact ⟨⟨trivial, trivial⟩, hparams, ⟨⟨trivial, trivial⟩, ⟨trivial, hword _⟩, trivial⟩,
    ⟨trivial, hword _⟩, trivial⟩

/-- The text that the variable of kind `any` is given never reaches the comparison. -/
theorem comparisons_never_fault_typed :
    ∃ u g m g' m', (ordered ⟨"x", .integer⟩ ⟨"y", .number⟩ (.any "w")).convert?
        (.standardWith []) 0 = .ok (g, m)
      ∧ g.NeverFaults
      ∧ decode? (ordered ⟨"x", .integer⟩ ⟨"y", .number⟩ (.any "w")).encode = .ok u
      ∧ u.convert? (.standardWith []) 0 = .ok (g', m') ∧ g'.NeverFaults := by
  have hnot : (Registry.standardWith []).get? Relations.notEqName = some Relations.buildNotEq := rfl
  have hcompare : (Registry.standardWith []).get? Relations.compareName
      = some Relations.buildCompare := rfl
  have hread := decode?_encode (doublesReadBack_ordered ⟨"x", .integer⟩ ⟨"y", .number⟩ (.any "w"))
  obtain ⟨hbuilt, hstored⟩ := comparisons_never_fault hnot hcompare
    (kindsKnown_ordered ⟨"x", .integer⟩ ⟨"y", .number⟩ (.any "w") rfl rfl)
  obtain ⟨g, m, hg, hlive⟩ := hbuilt 0
  obtain ⟨g', m', hg', hlive'⟩ := hstored _ hread 0
  exact ⟨_, g, m, g', m', hg, hlive, hread, hg', hlive'⟩

end Tree

end Goalbase

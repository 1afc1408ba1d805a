import Goalbase.Proofs.Least
import Mathlib.Data.Multiset.Bind
import Mathlib.Data.List.Perm.Basic

/-!
# Goalbase.Proofs.Conjunction

Conjunction does not depend on order.

What the branches of a goal demand is a multiset of sets (`Goal.demands`). A conjunction demands the
unions of what its parts demand, so neither the order of the parts nor the order of the two sides of
an equality matters (`Rearranged.demands_eq`). A branch's answer depends only on what it demands, so
rearranged conjunctions give the same answers, each as often (`conjunction_unordered`).
-/

namespace Goalbase

namespace Goal

/-- What the branches of a goal demand. -/
def demands (g : Goal) : Multiset (Set Demand) := Multiset.ofList (g.branches.map demanded)

/-- The unions of a set of the one and a set of the other multiset. -/
def unions (m n : Multiset (Set Demand)) : Multiset (Set Demand) := m.bind fun p => n.map (p ∪ ·)

theorem unions_right_comm (m n k : Multiset (Set Demand)) :
    unions (unions m n) k = unions (unions m k) n := by
  simp only [unions, Multiset.bind_assoc, Multiset.bind_map]
  refine Multiset.bind_congr fun p _ => ?_
  rw [Multiset.bind_map_comm]
  simp only [Set.union_right_comm]

theorem singleton_unions (m : Multiset (Set Demand)) : unions {∅} m = m := by
  simp only [unions, Multiset.singleton_bind, Set.empty_union, Multiset.map_id']

theorem demanded_append (b b' : List Leaf) : demanded (b ++ b') = demanded b ∪ demanded b' := by
  ext d
  constructor
  · rintro ⟨l, hl, rfl⟩
    cases List.mem_append.1 hl with
    | inl hl => exact .inl ⟨l, hl, rfl⟩
    | inr hl => exact .inr ⟨l, hl, rfl⟩
  · rintro (⟨l, hl, rfl⟩ | ⟨l, hl, rfl⟩)
    · exact ⟨l, List.mem_append_left _ hl, rfl⟩
    · exact ⟨l, List.mem_append_right _ hl, rfl⟩

theorem demands_succeed : demands .succeed = {∅} := by
  have hnil : demanded [] = ∅ := Set.eq_empty_iff_forall_notMem.2 fun d ⟨l, hl, _⟩ => by cases hl
  simp only [demands, branches, List.map_cons, List.map_nil, hnil, Multiset.coe_singleton]

theorem demands_and (g h : Goal) : (Goal.and g h).demands = unions g.demands h.demands := by
  simp only [demands, unions, branches, List.map_flatMap, List.map_map, Function.comp_def,
    demanded_append]
  rw [← Multiset.map_coe, Multiset.bind_map]
  simp only [Multiset.map_coe, List.map_map, Function.comp_def]
  exact (Multiset.coe_bind _ _).symm

theorem demands_or (before : List Goal) (g : Goal) (after : List Goal) :
    (Goal.or (before ++ g :: after)).demands
      = (Goal.or before).demands + (g.demands + (Goal.or after).demands) := by
  simp only [demands, branches, branchesAny_eq, List.flatMap_append, List.flatMap_cons,
    List.map_append, Multiset.coe_add]

theorem demands_andAll (goals : List Goal) :
    (andAll goals).demands = (goals.map demands).foldl unions {∅} := by
  cases goals with
  | nil => exact demands_succeed
  | cons g rest =>
    rw [List.map_cons, List.foldl_cons, singleton_unions, andAll]
    induction rest generalizing g with
    | nil => rfl
    | cons h rest ih => rw [List.foldl_cons, ih, demands_and, List.map_cons, List.foldl_cons]

/-- The same goal but for exchanges of the two sides of equalities. -/
inductive Turned : Goal → Goal → Prop where
  | refl (g : Goal) : Turned g g
  | equal (d e : Term) : Turned (.equal d e) (.equal e d)
  | or {g h : Goal} (before after : List Goal) (t : Turned g h) :
      Turned (.or (before ++ g :: after)) (.or (before ++ h :: after))
  | and {g h g' h' : Goal} (t : Turned g h) (t' : Turned g' h') : Turned (.and g g') (.and h h')
  | trans {g h k : Goal} (t : Turned g h) (t' : Turned h k) : Turned g k

/-- The same goals in any order, with sides of equalities exchanged. -/
def Rearranged (gs hs : List Goal) : Prop := ∃ ms, gs.Perm ms ∧ List.Forall₂ Turned ms hs

variable {K : Constraint → Prop} {g h : Goal} {gs hs : List Goal}

theorem Turned.demands_eq (t : Turned g h) : g.demands = h.demands := by
  induction t with
  | refl g => rfl
  | equal d e =>
    have hswap : demanded [.equal d e] = demanded [.equal e d] := by
      ext x
      simp only [demanded, Leaf.demand, List.mem_singleton, exists_eq_left, Sym2.eq_swap]
    simp only [demands, branches, List.map_cons, List.map_nil, hswap]
  | or before after _ ih => rw [demands_or, demands_or, ih]
  | and _ _ ih ih' => rw [demands_and, demands_and, ih, ih']
  | trans _ _ ih ih' => exact ih.trans ih'

theorem Turned.built (t : Turned g h) (hg : g.Built K) : h.Built K := by
  induction t with
  | refl g => exact hg
  | equal d e => exact .equal e d
  | or before after _ ih =>
    cases hg with
    | or hall =>
      refine .or fun x hx => ?_
      cases List.mem_append.1 hx with
      | inl hx => exact hall x (List.mem_append_left _ hx)
      | inr hx =>
        cases List.mem_cons.1 hx with
        | inl e =>
          rw [e]
          exact ih (hall _ (List.mem_append_right _ List.mem_cons_self))
        | inr hx => exact hall x (List.mem_append_right _ (List.mem_cons_of_mem _ hx))
  | and _ _ ih ih' =>
    cases hg with
    | and h h' => exact .and (ih h) (ih' h')
  | trans _ _ ih ih' => exact ih' (ih hg)

theorem Rearranged.demands_eq (hr : Rearranged gs hs) :
    (andAll gs).demands = (andAll hs).demands := by
  obtain ⟨ms, hperm, hturned⟩ := hr
  have hmap : ms.map demands = hs.map demands := by
    induction hturned generalizing gs with
    | nil => rfl
    | cons t _ ih => rw [List.map_cons, List.map_cons, t.demands_eq, ih (.refl _)]
  rw [demands_andAll, demands_andAll, ← hmap]
  exact (hperm.map demands).foldl_eq' (fun _ _ _ _ m => unions_right_comm m _ _) {∅}

theorem Rearranged.built (hr : Rearranged gs hs) (hgs : ∀ g ∈ gs, g.Built K) :
    ∀ h ∈ hs, h.Built K := by
  obtain ⟨ms, hperm, hturned⟩ := hr
  have hms : ∀ m ∈ ms, m.Built K := fun m hm => hgs m (hperm.mem_iff.2 hm)
  clear hperm
  induction hturned with
  | nil => exact hms
  | cons t _ ih =>
    intro h hh
    cases List.mem_cons.1 hh with
    | inl e =>
      rw [e]
      exact t.built (hms _ List.mem_cons_self)
    | inr hh => exact ih (fun m hm => hms m (List.mem_cons_of_mem _ hm)) h hh

/-- Goals that demand the same give the same answers. -/
theorem results_perm (hK : Constraint.Consistent K) (hplain : ∀ c, K c → c.Plain) (hg : g.Built K)
    (hh : h.Built K) (hd : g.demands = h.demands) :
    (g.branches.map result).Perm (h.branches.map result) := by
  simp only [demands, ← Multiset.map_coe] at hd
  have hrel := Multiset.rel_map.1 (Multiset.rel_eq.2 hd)
  refine Multiset.coe_eq_coe.1 ?_
  rw [← Multiset.map_coe, ← Multiset.map_coe, ← Multiset.rel_eq, Multiset.rel_map]
  exact hrel.mono fun b hb b' hb' hbb' =>
    result_congr hK hplain (hg.over b hb) (hh.over b' hb') hbb'

theorem map_answer_branches (g : Goal) :
    (g.answers .empty).map State.answer = (g.branches.map result).filterMap id := by
  rw [answers_eq_branches g rfl, List.map_filterMap, List.filterMap_map]
  rfl

/-- A conjunction gives the same answers, each as often, in whatever order its goals and the sides
of their equalities are written. -/
theorem conjunction_unordered (hK : Constraint.Consistent K) (hplain : ∀ c, K c → c.Plain)
    (hgs : ∀ g ∈ gs, g.Built K) (hr : Rearranged gs hs) :
    ∃ is js, Stream.Drains (andAll gs).run.value is ∧ Stream.Drains (andAll hs).run.value js
      ∧ ((Stream.live is).map State.answer).Perm ((Stream.live js).map State.answer) := by
  have hg := built_andAll hgs
  have hh := built_andAll (hr.built hgs)
  obtain ⟨is, his, hperm, -⟩ := hg.yields .empty
  obtain ⟨js, hjs, hperm', -⟩ := hh.yields .empty
  refine ⟨is, js, his, hjs, ?_⟩
  have hresults := (results_perm hK hplain hg hh hr.demands_eq).filterMap id
  rw [← map_answer_branches, ← map_answer_branches] at hresults
  exact ((hperm.filterMap _).map _).trans (hresults.trans ((hperm'.filterMap _).map _).symm)

/-- The copied variable gets its value last or first, and the sides of that equality are
exchanged. -/
theorem conjunction_unordered_copying :
    ∃ is js,
      Stream.Drains (andAll (copying (.any "w") (.any "x") (.any "y") (.any "z"))).run.value is
      ∧ Stream.Drains (andAll [.or [.equal (.lit (.word 1)) (.var (.any "w")),
            .equal (.var (.any "w")) (.lit (.word 2))],
          .equal (.var (.any "z")) (.lit (.word 1)),
          .constraint (.apart (.any "y") (.any "z")),
          .equal (.var (.any "x")) (.var (.any "w")),
          .constraint (.copy (.any "x") (.any "y"))]).run.value js
      ∧ ((Stream.live is).map State.answer).Perm ((Stream.live js).map State.answer) :=
  conjunction_unordered (Constraint.consistent_copyOrApart (.any "x") (.any "y") (.any "z"))
    (fun _ hc => Constraint.plain_copyOrApart hc)
    (built_copying (.any "w") (.any "x") (.any "y") (.any "z"))
    ⟨(copying (.any "w") (.any "x") (.any "y") (.any "z")).reverse, (List.reverse_perm _).symm,
      .cons (.or [] [.equal (.var (.any "w")) (.lit (.word 2))] (.equal _ _))
        (.cons (.refl _) (.cons (.refl _) (.cons (.equal _ _) (.cons (.refl _) .nil))))⟩

end Goal

end Goalbase

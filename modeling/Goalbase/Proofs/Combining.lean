import Goalbase.Query
import Mathlib.Algebra.BigOperators.Group.List.Basic
import Mathlib.Data.List.Forall2
import Mathlib.Data.List.Lex

/-!
# Goalbase.Proofs.Combining

A join of queries holds their product.

A `Choice` takes one tree of each of several lists and remembers the place where it stands there, so
that a tree which stands twice in a list is chosen twice. Choices are ordered by their places,
lexicographically. Joining goes from query to query: if the combinations so far are those of all
choices, each once and in ascending order (`Enumerates`), then those extended by the trees of one
more query are so too (`Enumerates.extend`). Hence the trees of a join (`joinAll_product`).
-/

namespace Goalbase

namespace Query

/-- Trees with their places, one of each of several lists. -/
abbrev Choice := List (Nat × Tree)

namespace Choice

def places (c : Choice) : List Nat := c.map Prod.fst

def trees (c : Choice) : List Tree := c.map Prod.snd

/-- Every tree stands at its place in the list it is chosen of. -/
def Among (c : Choice) (lists : List (List Tree)) : Prop :=
  List.Forall₂ (fun ts p => ts[p.1]? = some p.2) lists c

variable {c d : Choice} {lists : List (List Tree)} {ts : List Tree}

theorem among_nil : c.Among [] ↔ c = [] := List.forall₂_nil_left_iff

theorem among_concat : c.Among (lists ++ [ts]) ↔
    ∃ (d : Choice) (i : Nat) (t : Tree), c = d ++ [(i, t)] ∧ d.Among lists ∧ ts[i]? = some t := by
  constructor
  · intro h
    have h := List.forall₂_reverse_iff.2 h
    rw [List.reverse_concat] at h
    obtain ⟨⟨i, t⟩, d, ht, hd, hc⟩ := List.forall₂_cons_left_iff.1 h
    rw [← List.reverse_reverse d] at hd
    refine ⟨d.reverse, i, t, ?_, List.forall₂_reverse_iff.1 hd, ht⟩
    rw [← List.reverse_cons, ← hc, List.reverse_reverse]
  · rintro ⟨d, i, t, rfl, hd, ht⟩
    exact List.rel_append hd (.cons ht .nil)

theorem Among.length_places (h : c.Among lists) : c.places.length = lists.length :=
  (List.length_map _).trans h.length_eq.symm

theorem places_concat (c : Choice) (i : Nat) (t : Tree) :
    places (c ++ [(i, t)]) = c.places ++ [i] := List.map_append

theorem trees_concat (c : Choice) (i : Nat) (t : Tree) :
    trees (c ++ [(i, t)]) = c.trees ++ [t] := List.map_append

end Choice

/-- Of two lists of one length the lesser one stays so whatever is appended. -/
theorem append_lt_append {is js : List Nat} (h : is < js) (hlength : is.length = js.length)
    (is' js' : List Nat) : is ++ is' < js ++ js' := by
  induction h with
  | nil => cases hlength
  | rel hlt => exact .rel hlt
  | cons _ ih => exact .cons (ih (Nat.succ.inj hlength))

/-- The combinations are those of all choices, each once and in ascending order of the places. -/
def Enumerates (lists : List (List Tree)) (combinations : List (List Tree)) : Prop :=
  ∃ choices : List Choice, combinations = choices.map Choice.trees
    ∧ choices.Pairwise (fun c d => c.places < d.places)
    ∧ ∀ c : Choice, c ∈ choices ↔ c.Among lists

theorem enumerates_nil : Enumerates [] [[]] :=
  ⟨[[]], rfl, List.pairwise_singleton _ _, fun _ =>
    List.mem_singleton.trans Choice.among_nil.symm⟩

variable {lists combinations : List (List Tree)} {q : Query}

/-- The trees of one more query are chosen last and so vary first. -/
theorem Enumerates.extend (h : Enumerates lists combinations) (q : Query) :
    Enumerates (lists ++ [q.trees]) (extend combinations q) := by
  obtain ⟨choices, rfl, hascending, hmem⟩ := h
  refine ⟨choices.flatMap fun c => q.trees.zipIdx.map fun p => c ++ [(p.2, p.1)], ?_, ?_, ?_⟩
  · rw [Query.extend, List.flatMap_map, List.map_flatMap]
    refine List.flatMap_congr fun c _ => ?_
    rw [List.map_map]
    conv_lhs => rw [← List.zipIdx_map_fst 0 q.trees, List.map_map]
    exact List.map_congr_left fun p _ => (c.trees_concat p.2 p.1).symm
  · refine List.pairwise_flatMap.2 ⟨fun c _ => ?_, hascending.imp_of_mem fun hc hd hlt => ?_⟩
    · have hplaces : q.trees.zipIdx.Pairwise fun p r => p.2 < r.2 := by
        have hrange := List.pairwise_lt_range' (s := 0) (n := q.trees.length)
        rw [← List.zipIdx_map_snd 0 q.trees] at hrange
        exact List.pairwise_map.1 hrange
      refine List.pairwise_map.2 (hplaces.imp fun hlt => ?_)
      rw [Choice.places_concat, Choice.places_concat]
      exact List.Lex.append_left _ (.rel hlt) _
    · have hlength := ((hmem _).1 hc).length_places.trans ((hmem _).1 hd).length_places.symm
      intro x hx y hy
      obtain ⟨p, -, rfl⟩ := List.mem_map.1 hx
      obtain ⟨r, -, rfl⟩ := List.mem_map.1 hy
      rw [Choice.places_concat, Choice.places_concat]
      exact append_lt_append hlt hlength _ _
  · intro c
    rw [Choice.among_concat, List.mem_flatMap]
    constructor
    · rintro ⟨d, hd, hc⟩
      obtain ⟨p, hp, rfl⟩ := List.mem_map.1 hc
      exact ⟨d, p.2, p.1, rfl, (hmem d).1 hd, List.mem_zipIdx_iff_getElem?.1 hp⟩
    · rintro ⟨d, i, t, rfl, hd, ht⟩
      exact ⟨d, (hmem d).2 hd, List.mem_map.2 ⟨(t, i), List.mk_mem_zipIdx_iff_getElem?.2 ht, rfl⟩⟩

theorem Enumerates.foldl (h : Enumerates lists combinations) (others : List Query) :
    Enumerates (lists ++ others.map Query.trees) (others.foldl Query.extend combinations) := by
  induction others generalizing lists combinations with
  | nil =>
    rw [List.map_nil, List.append_nil]
    exact h
  | cons q others ih =>
    have hnext := ih (h.extend q)
    rw [List.append_assoc] at hnext
    exact hnext

theorem length_extend (combinations : List (List Tree)) (q : Query) :
    (extend combinations q).length = combinations.length * q.trees.length := by
  rw [extend, List.length_flatMap]
  simp only [List.length_map, List.map_const', List.sum_replicate_nat]

theorem length_foldl_extend (combinations : List (List Tree)) (others : List Query) :
    (others.foldl extend combinations).length
      = combinations.length * (others.map fun q => q.trees.length).prod := by
  induction others generalizing combinations with
  | nil => exact (Nat.mul_one _).symm
  | cons q others ih =>
    rw [List.foldl_cons, ih, length_extend, List.map_cons, List.prod_cons, Nat.mul_assoc]

/-- A join holds one tree for each choice of an own tree and of a tree of every other query, in
lexicographic order of their places: the chosen trees and the joining tree, anded. -/
theorem joinAll_product (q : Query) (joining : Tree) (others : List Query) :
    (∃ combinations, Enumerates (q.trees :: others.map Query.trees) combinations
        ∧ (q.joinAll joining others).trees = combinations.map fun us => .and (us ++ [joining]))
      ∧ (q.joinAll joining others).trees.length
        = q.trees.length * (others.map fun o => o.trees.length).prod
      ∧ ((q.joinAll joining others).trees = [] ↔ q.trees = [] ∨ ∃ o ∈ others, o.trees = [])
      ∧ (q.joinAll joining []).trees = q.trees.map fun t => .and [t, joining] := by
  have hlength : (q.joinAll joining others).trees.length
      = q.trees.length * (others.map fun o => o.trees.length).prod := by
    rw [joinAll, List.length_map, length_foldl_extend, List.length_map]
  refine ⟨⟨_, ?_, rfl⟩, hlength, ?_, ?_⟩
  · -- the own trees alone extend the one empty combination
    have hown : q.trees.map (fun t => [t]) = extend [[]] q := by
      rw [extend, List.flatMap_singleton]
      rfl
    rw [hown]
    exact (enumerates_nil.extend q).foldl others
  · rw [← List.length_eq_zero_iff, hlength, Nat.mul_eq_zero, List.length_eq_zero_iff,
      List.prod_eq_zero_iff_exists_zero_nat]
    simp only [List.mem_map, exists_exists_and_eq_and, List.length_eq_zero_iff]
  · rw [joinAll, List.foldl_nil, List.map_map]
    rfl

/-- A tree that stands twice in a query is joined twice. -/
example : (joinAll ⟨[.or [], .and []]⟩ (.and []) [⟨[.or [], .or []]⟩]).trees
    = [.and [.or [], .or [], .and []], .and [.or [], .or [], .and []],
      .and [.and [], .or [], .and []], .and [.and [], .or [], .and []]] := rfl

end Query

end Goalbase

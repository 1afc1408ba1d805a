import Goalbase.Proofs.Members
import Goalbase.Proofs.Reaching
import Goalbase.State.Projection
import Mathlib.Data.Finset.Max

/-!
# Goalbase.Proofs.Rendering

What a projection shows as a JSON object.

A projection has one entry for each selected variable (`State.mem_entries_project`), but the object
that it is written as has one member for each name. Entries are in ascending order, and of several
members with one name the last one counts: the member is the value of the namesake with the greatest
kind (`State.member?_written`). So a name shows what its variables hold exactly when that namesake
has a value other than `null`, or none of them has (`State.toJson_shows_iff`); an unbound namesake
of a greater kind hides the value of another one (`State.toJson_hides`).
-/

namespace Goalbase

namespace Projection

variable {x : Var} {t : Term} {e : Var × Term} {entries : List (Var × Term)} {p : Projection}

/-! ## The entries of a projection -/

/-- Setting an entry replaces the one of its variable and keeps all others. -/
theorem mem_set_iff (h : Ascending entries) :
    e ∈ set x t entries ↔ e = (x, t) ∨ e.1 ≠ x ∧ e ∈ entries := by
  induction entries with
  | nil => simp [set]
  | cons d rest ih =>
    obtain ⟨y, u⟩ := d
    obtain ⟨hy, hrest⟩ := List.pairwise_cons.1 h
    -- whatever is greater than a variable is another one
    have hne : ∀ {z w : Var}, z.compare w = .lt → w ≠ z := by
      intro z w hlt heq
      rw [heq, (Var.compare_eq_iff z z).2 rfl] at hlt
      cases hlt
    simp only [set]
    split
    · rename_i hxy
      rw [List.mem_cons]
      refine or_congr_right ⟨fun he => ⟨?_, he⟩, And.right⟩
      rcases List.mem_cons.1 he with rfl | he
      · exact hne hxy
      · exact hne (Var.compare_lt_trans hxy (hy e he))
    · rename_i hxy
      cases (Var.compare_eq_iff x y).1 hxy
      rw [List.mem_cons, List.mem_cons]
      refine or_congr_right ⟨fun he => ⟨hne (hy e he), .inr he⟩, ?_⟩
      rintro ⟨hex, rfl | he⟩
      · exact absurd rfl hex
      · exact he
    · rename_i hxy
      have hyx : y ≠ x := by
        rintro rfl
        rw [(Var.compare_eq_iff y y).2 rfl] at hxy
        cases hxy
      rw [List.mem_cons, List.mem_cons, ih hrest]
      constructor
      · rintro (rfl | rfl | he)
        · exact .inr ⟨hyx, .inl rfl⟩
        · exact .inl rfl
        · exact .inr ⟨he.1, .inr he.2⟩
      · rintro (rfl | ⟨hex, rfl | he⟩)
        · exact .inr (.inl rfl)
        · exact .inl rfl
        · exact .inr (.inr ⟨hex, he⟩)

theorem mem_insert : e ∈ (p.insert x t).entries ↔ e = (x, t) ∨ e.1 ≠ x ∧ e ∈ p.entries :=
  mem_set_iff p.ascending

/-- The entries of variables with what a function gives for them. -/
theorem mem_ofList_map {f : Var → Term} {xs : List Var} :
    e ∈ (ofList (xs.map fun x => (x, f x))).entries ↔ e.1 ∈ xs ∧ e.2 = f e.1 := by
  have hfold : ∀ (ys : List Var) (p : Projection),
      e ∈ ((ys.map fun x => (x, f x)).foldl (fun p e => p.insert e.1 e.2) p).entries
        ↔ e.1 ∈ ys ∧ e.2 = f e.1 ∨ e.1 ∉ ys ∧ e ∈ p.entries := by
    intro ys
    induction ys with
    | nil => simp
    | cons y ys ih =>
      intro p
      rw [List.map_cons, List.foldl_cons, ih, mem_insert, List.mem_cons]
      have hy : e = (y, f y) ↔ e.1 = y ∧ e.2 = f e.1 := by
        rw [Prod.ext_iff]
        refine and_congr_right fun he => ?_
        rw [he]
      rw [hy]
      tauto
  rw [ofList, hfold]
  simp [empty]

end Projection

/-- The variables that a selection stands for. -/
def State.selected (s : State) (vars : List Var) : List Var :=
  if vars.isEmpty then s.boundVars else vars

theorem State.mem_entries_project {s : State} {vars : List Var} {e : Var × Term} :
    e ∈ (s.project vars).entries ↔ e.1 ∈ s.selected vars ∧ e.2 = s.resolve (.var e.1) :=
  Projection.mem_ofList_map

/-! ## The members of the object -/

namespace Json

variable {k : String} {ms : List (String × Json)}

theorem member?_eq_none_iff : member? k ms = none ↔ k ∉ ms.map Prod.fst := by
  refine ⟨fun h => ?_, member?_eq_none⟩
  induction ms with
  | nil => exact List.not_mem_nil
  | cons m ms ih =>
    rw [member?_cons, Option.or_eq_none_iff] at h
    rw [List.map_cons, List.mem_cons, not_or]
    refine ⟨?_, ih h.1⟩
    rintro rfl
    rw [if_pos rfl] at h
    cases h.2

/-- Putting members in order drops no key. -/
theorem mem_keys_ordered : k ∈ (ordered ms).map Prod.fst ↔ k ∈ ms.map Prod.fst := by
  rw [← not_iff_not, ← member?_eq_none_iff, member?_ordered, member?_eq_none_iff]

end Json

/-- The variable has the greatest kind of its namesakes in the list. -/
structure Var.LastNamed (xs : List Var) (x : Var) : Prop where
  mem : x ∈ xs
  greatest : ∀ y ∈ xs, y.name = x.name → y.kind.rank ≤ x.kind.rank

theorem Var.exists_lastNamed {xs : List Var} {x : Var} (hx : x ∈ xs) :
    ∃ y : Var, y.LastNamed xs ∧ y.name = x.name := by
  have hmem : ∀ {y : Var}, y ∈ xs.toFinset.filter (fun y => y.name = x.name)
      ↔ y ∈ xs ∧ y.name = x.name := by
    intro y
    rw [Finset.mem_filter, List.mem_toFinset]
  obtain ⟨y, hy, hmax⟩ := Finset.exists_max_image
    (xs.toFinset.filter fun y => y.name = x.name) (fun y => y.kind.rank) ⟨x, hmem.2 ⟨hx, rfl⟩⟩
  obtain ⟨hyxs, hname⟩ := hmem.1 hy
  exact ⟨y, ⟨hyxs, fun z hz hzy => hmax z (hmem.2 ⟨hz, hzy.trans hname⟩)⟩, hname⟩

/-- With one name, the order of variables is the order of their kinds. -/
theorem Var.rank_lt_of_compare {x y : Var} (h : x.compare y = .lt) (hname : y.name = x.name) :
    x.kind.rank < y.kind.rank := by
  rw [compare, hname, Std.ReflOrd.compare_self] at h
  exact Nat.compare_eq_lt.1 h

namespace State

open Projection

variable {s : State} {vars : List Var} {x : Var} {name : String}

/-- The members of the object, before they are put in order. -/
def written (s : State) (vars : List Var) : List (String × Json) :=
  (s.project vars).entries.map fun e => (e.1.name, valueOf e.2)

theorem toJson_project (s : State) (vars : List Var) :
    (s.project vars).toJson = .object (Json.ordered (s.written vars)) := rfl

/-- The names written are those of the selected variables. -/
theorem mem_names_written :
    name ∈ (s.written vars).map Prod.fst ↔ ∃ x ∈ s.selected vars, x.name = name := by
  simp only [written, List.map_map, List.mem_map, Function.comp_apply]
  constructor
  · rintro ⟨e, he, rfl⟩
    exact ⟨e.1, (mem_entries_project.1 he).1, rfl⟩
  · rintro ⟨x, hx, rfl⟩
    exact ⟨(x, s.resolve (.var x)), mem_entries_project.2 ⟨hx, rfl⟩, rfl⟩

/-- Of several namesakes the one with the greatest kind is looked up. -/
theorem member?_written (hx : x.LastNamed (s.selected vars)) :
    Json.member? x.name (s.written vars) = some (valueOf (s.resolve (.var x))) := by
  have hmem : (x, s.resolve (.var x)) ∈ (s.project vars).entries :=
    mem_entries_project.2 ⟨hx.mem, rfl⟩
  obtain ⟨before, behind, hsplit⟩ := List.append_of_mem hmem
  have hasc := (s.project vars).ascending
  rw [hsplit, Ascending, List.pairwise_append, List.pairwise_cons] at hasc
  -- no namesake stands behind it
  have hbehind : x.name ∉ (behind.map fun e => (e.1.name, valueOf e.2)).map Prod.fst := by
    rw [List.map_map, List.mem_map]
    rintro ⟨e, he, hname⟩
    have he' : e ∈ (s.project vars).entries := by
      rw [hsplit]
      exact List.mem_append_right _ (List.mem_cons_of_mem _ he)
    have hle := hx.greatest e.1 (mem_entries_project.1 he').1 hname
    exact absurd (Var.rank_lt_of_compare (hasc.2.1.1 e he) hname) (Nat.not_lt.2 hle)
  rw [written, hsplit, List.map_append, List.map_cons, Json.member?_append, Json.member?_cons,
    Json.member?_eq_none hbehind, Option.none_or, if_pos rfl, Option.some_or]

/-! ## What a name shows -/

/-- The member under a name is the value of one of its variables if one of them has a value, and it
is `null` only if none of them has another value. -/
structure Shows (s : State) (xs : List Var) (name : String) (j : Json) : Prop where
  value : (∃ x ∈ xs, x.name = name ∧ s.hasValue x = true) →
    ∃ x ∈ xs, x.name = name ∧ ∃ a, s.valueOf? x = some a ∧ a.json = j
  null : j = .null → ∀ x ∈ xs, x.name = name → ∀ a, s.valueOf? x = some a → a.json = .null

theorem valueOf_resolve {a : Literal} (h : s.valueOf? x = some a) :
    valueOf (s.resolve (.var x)) = a.json := by
  rw [valueOf?_eq_some.1 h, valueOf]

theorem valueOf_resolve_open (h : s.hasValue x = false) :
    valueOf (s.resolve (.var x)) = .null := by
  obtain ⟨y, hy⟩ := hasValue_eq_false.1 h
  rw [hy, valueOf]

/-- The value of the last namesake shows the name if it is not `null`, or if there is nothing but
`null` to show. -/
theorem shows_iff {xs : List Var} (hx : x ∈ xs) :
    s.Shows xs x.name (valueOf (s.resolve (.var x))) ↔
      (∃ a, s.valueOf? x = some a ∧ a.json ≠ .null)
        ∨ ∀ y ∈ xs, y.name = x.name → ∀ a, s.valueOf? y = some a → a.json = .null := by
  constructor
  · intro h
    by_cases hnull : valueOf (s.resolve (.var x)) = .null
    · exact .inr (h.null hnull)
    · left
      cases hv : s.hasValue x with
      | false => exact absurd (valueOf_resolve_open hv) hnull
      | true =>
        obtain ⟨a, ha⟩ := hasValue_iff.1 hv
        have ha := valueOf?_eq_some.2 ha
        exact ⟨a, ha, fun h => hnull ((valueOf_resolve ha).trans h)⟩
  · rintro (⟨a, ha, hne⟩ | hall)
    · rw [valueOf_resolve ha]
      exact ⟨fun _ => ⟨x, hx, rfl, a, ha, rfl⟩, fun h => absurd h hne⟩
    · have hnull : valueOf (s.resolve (.var x)) = .null := by
        cases hv : s.hasValue x with
        | false => exact valueOf_resolve_open hv
        | true =>
          obtain ⟨a, ha⟩ := hasValue_iff.1 hv
          have ha := valueOf?_eq_some.2 ha
          rw [valueOf_resolve ha, hall x hx rfl a ha]
      rw [hnull]
      refine ⟨?_, fun _ => hall⟩
      rintro ⟨y, hy, hname, hv⟩
      obtain ⟨a, ha⟩ := hasValue_iff.1 hv
      have ha := valueOf?_eq_some.2 ha
      exact ⟨y, hy, hname, a, ha, hall y hy hname a ha⟩

/-- A projection is written as an object with one member for each name of a selected variable, in
ascending order. The member is the value of the namesake with the greatest kind, `null` if that one
has no value. So a name shows what its variables hold exactly if that namesake has a value other
than `null`, or none of the namesakes has one. -/
theorem toJson_shows_iff (s : State) (vars : List Var) :
    ∃ members, (s.project vars).toJson = .object members ∧ Json.ascending members = true
      ∧ (∀ name, name ∈ members.map Prod.fst ↔ ∃ x ∈ s.selected vars, x.name = name)
      ∧ ∀ name ∈ members.map Prod.fst, ∃ x j, x.LastNamed (s.selected vars) ∧ x.name = name
        ∧ Json.member? name members = some j ∧ j = valueOf (s.resolve (.var x))
        ∧ (s.Shows (s.selected vars) name j ↔
          (∃ a, s.valueOf? x = some a ∧ a.json ≠ .null)
            ∨ ∀ y ∈ s.selected vars, y.name = name → ∀ a, s.valueOf? y = some a →
              a.json = .null) := by
  have hnames : ∀ name, name ∈ (Json.ordered (s.written vars)).map Prod.fst
      ↔ ∃ x ∈ s.selected vars, x.name = name :=
    fun name => Json.mem_keys_ordered.trans mem_names_written
  refine ⟨_, toJson_project s vars, Json.ascending_ordered _, hnames, fun name hname => ?_⟩
  obtain ⟨y, hy, rfl⟩ := (hnames name).1 hname
  obtain ⟨x, hx, hxy⟩ := Var.exists_lastNamed hy
  rw [← hxy]
  refine ⟨x, _, hx, rfl, ?_, rfl, shows_iff hx.mem⟩
  rw [Json.member?_ordered, member?_written hx]

/-- The integer `x` is 5, and the text `x` has no value. The name shows `null`. -/
theorem toJson_hides : ∃ s : State, s.Reachable (fun _ => False)
    ∧ s.valueOf? ⟨"x", .integer⟩ = some (.word 5)
    ∧ (s.project [⟨"x", .integer⟩, ⟨"x", .text⟩]).toJson = .object [("x", .null)]
    ∧ ¬s.Shows (s.selected [⟨"x", .integer⟩, ⟨"x", .text⟩]) "x" .null := by
  refine ⟨empty.bind ⟨"x", .integer⟩ (.lit (.word 5)),
    .unify (a := .var ⟨"x", .integer⟩) (b := .lit (.word 5)) .empty rfl, rfl, rfl, fun h => ?_⟩
  have hnull := h.null rfl ⟨"x", .integer⟩ List.mem_cons_self rfl (.word 5) rfl
  cases hnull

end State

end Goalbase

import Goalbase.Proofs.Judging
import Goalbase.Proofs.Reaching
import Mathlib.Data.List.Perm.Subperm

/-!
# Goalbase.Proofs.Equating

What equality of states means.

`State.same` compares the numbers of entries and then looks up the entries of its left operand only.
For bindings this is enough: tables with as many entries, each of which has a counterpart, agree at
every key (`Table.rel_get?_iff`). For pending constraints it is enough in states that are `Filled`,
where no variable is mapped to an empty list: such a variable would count as an entry but have
nothing to compare. Every operation keeps states filled (`Reachable.filled`), so equality of
reachable states is to agree everywhere (`same_iff`), and that is an equivalence
(`same_equivalence`).
-/

namespace Goalbase

section Options

variable {α : Type} {R : α → α → Prop} {a b c : Option α}

theorem optionRel_refl (hR : ∀ x, R x x) (a : Option α) : Option.Rel R a a := by
  cases a with
  | none => exact .none
  | some x => exact .some (hR x)

theorem optionRel_symm (hR : ∀ {x y}, R x y → R y x) (h : Option.Rel R a b) : Option.Rel R b a := by
  cases h with
  | some h => exact .some (hR h)
  | none => exact .none

theorem optionRel_trans (hR : ∀ {x y z}, R x y → R y z → R x z) (h : Option.Rel R a b)
    (h' : Option.Rel R b c) : Option.Rel R a c := by
  cases h with
  | some h => cases h' with | some h' => exact .some (hR h h')
  | none => exact h'

end Options

namespace Table

variable {κ α : Type} [DecidableEq κ] {R : α → α → Prop} {a b : Table κ α}

theorem mem_entries_iff {t : Table κ α} {k : κ} {v : α} : (k, v) ∈ t.entries ↔ t.get? k = some v :=
  ⟨valueAt?_of_mem t.distinct, mem_of_valueAt?⟩

/-- As many entries on both sides and a counterpart for each entry of one side: the sides agree at
every key. -/
theorem rel_get?_iff :
    (a.size = b.size ∧ ∀ e ∈ a.entries, ∃ v, b.get? e.1 = some v ∧ R e.2 v)
      ↔ ∀ k, Option.Rel R (a.get? k) (b.get? k) := by
  constructor
  · rintro ⟨hsize, h⟩ k
    have hsub : a.keys ⊆ b.keys := by
      intro l hl
      obtain ⟨e, he, rfl⟩ := List.mem_map.1 hl
      obtain ⟨v, hv, -⟩ := h e he
      exact (b.mem_keys e.1).2 (by rw [hv]; exact Option.some_ne_none v)
    -- distinct keys among as many others are all of them
    have hperm : a.keys.Perm b.keys := by
      refine (List.Nodup.subperm a.distinct hsub).perm_of_length_le ?_
      simp only [keys, List.length_map]
      exact Nat.le_of_eq hsize.symm
    cases hk : a.get? k with
    | some v =>
      obtain ⟨w, hw, hr⟩ := h (k, v) (mem_entries_iff.2 hk)
      rw [hw]
      exact .some hr
    | none =>
      have hb : b.get? k = none := by
        by_contra hb
        exact (a.mem_keys k).1 (hperm.mem_iff.2 ((b.mem_keys k).2 hb)) hk
      rw [hb]
      exact .none
  · intro h
    have hkeys : ∀ k, k ∈ a.keys ↔ k ∈ b.keys := by
      intro k
      have hr := h k
      rw [mem_keys, mem_keys]
      generalize a.get? k = o at hr ⊢
      generalize b.get? k = p at hr ⊢
      cases hr <;> simp
    refine ⟨?_, fun e he => ?_⟩
    · have hlen := ((List.perm_ext_iff_of_nodup a.distinct b.distinct).2 hkeys).length_eq
      rwa [List.length_map, List.length_map] at hlen
    · have hr := h e.1
      generalize b.get? e.1 = o at hr ⊢
      rw [mem_entries_iff.1 he] at hr
      cases hr with | some hr => exact ⟨_, rfl, hr⟩

end Table

namespace State

variable {s t u : State} {K : Constraint → Prop}

/-! ## Filled states -/

/-- No variable is mapped to an empty list of constraints. -/
def Filled (s : State) : Prop := ∀ x, s.pending.get? x ≠ some []

theorem filled_empty : empty.Filled := fun _ h => by cases h

theorem Filled.keep (hs : s.Filled) (x : Var) (cs : List Constraint) : (s.keep x cs).Filled := by
  intro y
  simp only [State.keep]
  split
  · exact hs y
  · rename_i hcs
    rw [Table.get?_insert]
    split
    · intro h
      rw [(List.append_eq_nil_iff.1 (Option.some.inj h)).2] at hcs
      exact hcs rfl
    · exact hs y

theorem Update.filled (h : Update K s t) (hs : s.Filled) : t.Filled := by
  cases h with
  | assign _ _ => exact hs
  | @point x y _ _ _ _ => exact Filled.keep (s := s.bind x (.var y)) hs y _
  | fault reason => exact hs
  | register x _ =>
    simp only [addConstraint]
    split
    · exact hs
    · exact hs.keep _ _

theorem Updates.filled (h : Updates K s t) (hs : s.Filled) : t.Filled := by
  induction h with
  | refl s => exact hs
  | step h _ ih => exact ih (h.filled hs)

theorem Reachable.filled (h : s.Reachable K) : s.Filled := h.updates.filled filled_empty

/-! ## Agreeing states -/

/-- The identities of the constraints kept on a variable, in order. -/
def handlesOf (s : State) (x : Var) : List Handle := (s.constraintsOf x).map Constraint.handle

/-- States that agree on every variable: bindings to the same terms, the same constraints in the
same order, and the same fault. -/
structure Agrees (s t : State) : Prop where
  bindings : ∀ x,
    Option.Rel (fun d e => d.same e = true) (s.bindings.get? x) (t.bindings.get? x)
  fault : Option.Rel (fun a b => a.same b = true) s.fault t.fault
  handles : ∀ x, s.handlesOf x = t.handlesOf x

theorem Agrees.refl (s : State) : s.Agrees s :=
  ⟨fun _ => optionRel_refl Term.same_refl _, optionRel_refl Fault.same_refl _, fun _ => rfl⟩

theorem Agrees.symm (h : s.Agrees t) : t.Agrees s :=
  ⟨fun x => optionRel_symm Term.same_symm (h.bindings x), optionRel_symm Fault.same_symm h.fault,
    fun x => (h.handles x).symm⟩

theorem Agrees.trans (h : s.Agrees t) (h' : t.Agrees u) : s.Agrees u :=
  ⟨fun x => optionRel_trans Term.same_trans (h.bindings x) (h'.bindings x),
    optionRel_trans Fault.same_trans h.fault h'.fault,
    fun x => (h.handles x).trans (h'.handles x)⟩

theorem sameBindings_iff {a b : Table Var Term} :
    sameBindings a b = true
      ↔ ∀ x, Option.Rel (fun d e => d.same e = true) (a.get? x) (b.get? x) := by
  rw [← Table.rel_get?_iff]
  simp only [sameBindings, Bool.and_eq_true, beq_iff_eq, List.all_eq_true]
  refine and_congr_right fun _ => forall₂_congr fun e _ => ?_
  cases b.get? e.1 <;> simp

theorem sameFault_iff {a b : Option Fault} :
    sameFault a b = true ↔ Option.Rel (fun a b => a.same b = true) a b := by
  constructor
  · intro h
    cases a with
    | none => cases b with
      | none => exact .none
      | some b => cases h
    | some a => cases b with
      | none => cases h
      | some b => exact .some h
  · intro h
    cases h with
    | some h => exact h
    | none => rfl

theorem sameConstraints_iff {cs ds : List Constraint} :
    sameConstraints cs ds = true ↔ cs.map Constraint.handle = ds.map Constraint.handle := by
  induction cs generalizing ds with
  | nil => cases ds <;> simp [sameConstraints]
  | cons c cs ih =>
    cases ds with
    | nil => simp [sameConstraints]
    | cons d ds => simp [sameConstraints, ih, Constraint.same]

theorem rel_sameConstraints_iff {o p : Option (List Constraint)} (ho : o ≠ some [])
    (hp : p ≠ some []) :
    Option.Rel (fun cs ds => sameConstraints cs ds = true) o p
      ↔ (o.getD []).map Constraint.handle = (p.getD []).map Constraint.handle := by
  constructor
  · intro h
    cases h with
    | some h => exact sameConstraints_iff.1 h
    | none => rfl
  · intro h
    cases o with
    | none =>
      cases p with
      | none => exact .none
      | some ds => exact absurd (congrArg some (List.map_eq_nil_iff.1 h.symm)) hp
    | some cs =>
      cases p with
      | none => exact absurd (congrArg some (List.map_eq_nil_iff.1 h)) ho
      | some ds => exact .some (sameConstraints_iff.2 h)

/-- In filled states it is enough to compare the number of entries and the lists of one side. -/
theorem samePending_iff (hs : s.Filled) (ht : t.Filled) :
    (s.pending.size = t.pending.size
        ∧ ∀ e ∈ s.pending.entries, sameConstraints e.2 (t.constraintsOf e.1) = true)
      ↔ ∀ x, s.handlesOf x = t.handlesOf x := by
  calc
    _ ↔ s.pending.size = t.pending.size ∧ ∀ e ∈ s.pending.entries, ∃ ds,
        t.pending.get? e.1 = some ds ∧ sameConstraints e.2 ds = true := by
      refine and_congr_right fun _ => forall₂_congr fun e he => ?_
      cases hds : t.pending.get? e.1 with
      | some ds => simp [constraintsOf, hds]
      | none =>
        have hne : e.2 ≠ [] := fun h => hs e.1 (h ▸ Table.mem_entries_iff.1 he)
        simp [constraintsOf, hds, sameConstraints_iff, hne]
    _ ↔ ∀ x, Option.Rel (fun cs ds => sameConstraints cs ds = true) (s.pending.get? x)
        (t.pending.get? x) := Table.rel_get?_iff (R := fun cs ds => sameConstraints cs ds = true)
    _ ↔ ∀ x, s.handlesOf x = t.handlesOf x :=
      forall_congr' fun x => rel_sameConstraints_iff (hs x) (ht x)

theorem same_iff (hs : s.Filled) (ht : t.Filled) : s.same t = true ↔ s.Agrees t := by
  simp only [same, Bool.and_eq_true, beq_iff_eq, List.all_eq_true, sameBindings_iff, sameFault_iff]
  rw [and_assoc, and_assoc]
  refine ⟨fun ⟨hb, hf, hp⟩ => ⟨hb, hf, ?_⟩, fun h => ⟨h.bindings, h.fault, ?_⟩⟩
  · exact (samePending_iff hs ht).1 hp
  · exact (samePending_iff hs ht).2 h.handles

/-- A state that is not filled can equal another one that does not equal it. -/
example :
    let s : State := { empty with pending := Table.empty.insert (.any "x") [] }
    let t : State := empty.addConstraint (.any "y") ⟨.built 0, [], .always, []⟩
    s.same t = true ∧ t.same s = false := by decide

theorem same_equivalence (K : Constraint → Prop) :
    Equivalence fun s t : {s : State // s.Reachable K} => s.1.same t.1 = true where
  refl s := (same_iff s.2.filled s.2.filled).2 (.refl s.1)
  symm {s t} h := (same_iff t.2.filled s.2.filled).2 ((same_iff s.2.filled t.2.filled).1 h).symm
  trans {s t u} h h' := (same_iff s.2.filled u.2.filled).2
    (((same_iff s.2.filled t.2.filled).1 h).trans ((same_iff t.2.filled u.2.filled).1 h'))

end State

end Goalbase

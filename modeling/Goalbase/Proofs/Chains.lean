import Goalbase.State
import Goalbase.Proofs.Literals

/-!
# Goalbase.Proofs.Chains

Chains of bindings and their ends.

`Chain s xs t e` says that following the bindings of the variables `xs` leads from `t` to its end
`e`. A state is `Acyclic` when every term has a chain. A chain follows no variable twice, so
`State.resolve` has steps enough to reach its end (`Chain.resolve_eq`). Binding an unbound variable
to the end of another chain keeps a state acyclic (`acyclic_bind`) and changes just those ends that
were the variable (`resolve_bind`).
-/

namespace Goalbase

theorem mem_of_valueAt? {κ α : Type} [DecidableEq κ] {k : κ} {a : α} {entries : List (κ × α)}
    (h : valueAt? k entries = some a) : (k, a) ∈ entries := by
  induction entries with
  | nil => cases h
  | cons e rest ih =>
    obtain ⟨l, b⟩ := e
    simp only [valueAt?] at h
    split at h
    · rename_i hk
      cases h
      rw [hk]
      exact List.mem_cons_self
    · exact List.mem_cons_of_mem _ (ih h)

theorem valueAt?_of_mem {κ α : Type} [DecidableEq κ] {k : κ} {a : α} {entries : List (κ × α)}
    (hd : (entries.map Prod.fst).Nodup) (h : (k, a) ∈ entries) : valueAt? k entries = some a := by
  induction entries with
  | nil => cases h
  | cons e rest ih =>
    obtain ⟨l, b⟩ := e
    rw [List.map_cons, List.nodup_cons] at hd
    cases List.mem_cons.1 h with
    | inl h => cases h; exact if_pos rfl
    | inr h =>
      have hne : l ≠ k := fun e => hd.1 (List.mem_map.2 ⟨(k, a), h, e.symm⟩)
      rw [valueAt?, if_neg hne]
      exact ih hd.2 h

/-- A term with one variable replaced. -/
def Term.replace (u : Term) (x : Var) (t : Term) : Term :=
  match u with
  | .lit a => .lit a
  | .var y => if y = x then t else .var y

@[simp] theorem Term.replace_self (x : Var) (t : Term) : (Term.var x).replace x t = t :=
  if_pos rfl

theorem Term.replace_ne {u : Term} {x : Var} (h : u ≠ .var x) (t : Term) : u.replace x t = u := by
  cases u with
  | lit a => rfl
  | var y => exact if_neg fun hy => h (congrArg Term.var hy)

theorem Term.of_replace_eq {u t e : Term} {x : Var} (h : u.replace x t = e) :
    u = e ∨ (u = .var x ∧ t = e) := by
  by_cases hu : u = .var x
  · rw [hu, replace_self] at h
    exact .inr ⟨hu, h⟩
  · rw [replace_ne hu] at h
    exact .inl h

namespace State

/-- From a term to its end, by the bindings of the listed variables. -/
inductive Chain (s : State) : List Var → Term → Term → Prop where
  | lit (a : Literal) : Chain s [] (.lit a) (.lit a)
  | free {x : Var} (h : s.bindings.get? x = none) : Chain s [] (.var x) (.var x)
  | follow {x : Var} {t e : Term} {xs : List Var} (h : s.bindings.get? x = some t)
      (rest : Chain s xs t e) : Chain s (x :: xs) (.var x) e

namespace Chain

variable {s : State} {t e : Term} {xs : List Var}

theorem deterministic {d : Term} {ys : List Var} (h : s.Chain xs t e) (h' : s.Chain ys t d) :
    xs = ys ∧ e = d := by
  induction h generalizing ys with
  | lit a => cases h'; exact ⟨rfl, rfl⟩
  | free hx =>
    cases h' with
    | free _ => exact ⟨rfl, rfl⟩
    | follow hx' _ => rw [hx] at hx'; cases hx'
  | follow hx _ ih =>
    cases h' with
    | free hx' => rw [hx] at hx'; cases hx'
    | follow hx' rest' =>
      rw [hx] at hx'
      cases hx'
      obtain ⟨rfl, rfl⟩ := ih rest'
      exact ⟨rfl, rfl⟩

/-- The part of a chain from one of its variables on. -/
theorem suffix (h : s.Chain xs t e) {y : Var} (hy : y ∈ xs) :
    ∃ pre post, xs = pre ++ y :: post ∧ s.Chain (y :: post) (.var y) e := by
  induction h with
  | lit a => cases hy
  | free _ => cases hy
  | @follow x t e xs hx rest ih =>
    cases List.mem_cons.1 hy with
    | inl hyx =>
      subst hyx
      exact ⟨[], xs, rfl, .follow hx rest⟩
    | inr hy =>
      obtain ⟨pre, post, rfl, hc⟩ := ih hy
      exact ⟨x :: pre, post, rfl, hc⟩

theorem nodup (h : s.Chain xs t e) : xs.Nodup := by
  induction h with
  | lit a => exact .nil
  | free _ => exact .nil
  | @follow x t e xs hx rest ih =>
    refine List.nodup_cons.2 ⟨fun hmem => ?_, ih⟩
    obtain ⟨pre, post, hxs, hc⟩ := rest.suffix hmem
    -- the chain from `x` would contain itself as a proper part
    have heq := (hc.deterministic (.follow hx rest)).1
    have hlen := congrArg List.length hxs
    rw [← (List.cons.inj heq).2] at hlen
    simp only [List.length_append, List.length_cons] at hlen
    omega

theorem subset_boundVars (h : s.Chain xs t e) : xs ⊆ s.boundVars := by
  induction h with
  | lit a => exact List.nil_subset _
  | free _ => exact List.nil_subset _
  | follow hx _ ih => exact List.cons_subset.2 ⟨List.mem_map_of_mem (mem_of_valueAt? hx), ih⟩

/-- A chain follows at most as many bindings as there are. -/
theorem length_le (h : s.Chain xs t e) : xs.length ≤ s.bindings.size := by
  have := h.nodup.length_le_of_subset h.subset_boundVars
  simpa [boundVars, Table.keys, Table.size] using this

theorem walk_eq (h : s.Chain xs t e) :
    ∀ {steps : Nat}, xs.length ≤ steps → s.walk steps t = e := by
  induction h with
  | lit a => intro steps _; cases steps <;> rfl
  | free hx =>
    intro steps _
    cases steps with
    | zero => rfl
    | succ n => simp only [walk, hx]
  | follow hx _ ih =>
    intro steps hlen
    cases steps with
    | zero => simp at hlen
    | succ n =>
      simp only [walk, hx]
      exact ih (by simpa using hlen)

theorem resolve_eq (h : s.Chain xs t e) : s.resolve t = e := h.walk_eq h.length_le

/-- The end of a chain is a literal or an unbound variable. -/
theorem end_chain (h : s.Chain xs t e) : s.Chain [] e e := by
  induction h with
  | lit a => exact .lit a
  | free hx => exact .free hx
  | follow _ _ ih => exact ih

end Chain

/-- Every chain has an end. -/
def Acyclic (s : State) : Prop := ∀ t, ∃ xs e, s.Chain xs t e

section Congr

variable {s t : State} (h : t.bindings = s.bindings)

include h

theorem walk_congr (n : Nat) (u : Term) : t.walk n u = s.walk n u := by
  induction n generalizing u with
  | zero => rfl
  | succ n ih =>
    cases u with
    | lit a => rfl
    | var x =>
      simp only [walk, h]
      split
      · exact ih _
      · rfl

theorem resolve_congr (u : Term) : t.resolve u = s.resolve u := by
  simp only [resolve, h]
  exact walk_congr h _ u

theorem chain_congr {xs : List Var} {u e : Term} (hc : s.Chain xs u e) : t.Chain xs u e := by
  induction hc with
  | lit a => exact .lit a
  | free hx => exact .free (by rw [h]; exact hx)
  | follow hx _ ih => exact .follow (by rw [h]; exact hx) ih

theorem acyclic_congr (hs : s.Acyclic) : t.Acyclic := fun u =>
  let ⟨xs, e, hc⟩ := hs u
  ⟨xs, e, chain_congr h hc⟩

end Congr

theorem acyclic_empty : empty.Acyclic := fun t =>
  match t with
  | .lit a => ⟨[], .lit a, .lit a⟩
  | .var x => ⟨[], .var x, .free rfl⟩

@[simp] theorem resolve_lit (s : State) (a : Literal) : s.resolve (.lit a) = .lit a :=
  (Chain.lit a).resolve_eq

theorem resolve_free {s : State} {x : Var} (h : s.bindings.get? x = none) :
    s.resolve (.var x) = .var x := (Chain.free h).resolve_eq

namespace Acyclic

variable {s : State} (hs : s.Acyclic)

include hs

theorem chain_resolve (t : Term) : ∃ xs, s.Chain xs t (s.resolve t) := by
  obtain ⟨xs, e, hc⟩ := hs t
  exact ⟨xs, by rw [hc.resolve_eq]; exact hc⟩

theorem resolve_resolve (t : Term) : s.resolve (s.resolve t) = s.resolve t := by
  obtain ⟨xs, hc⟩ := hs.chain_resolve t
  exact hc.end_chain.resolve_eq

theorem resolve_bound {x : Var} {t : Term} (h : s.bindings.get? x = some t) :
    s.resolve (.var x) = s.resolve t := by
  obtain ⟨xs, hc⟩ := hs.chain_resolve t
  exact (hc.follow h).resolve_eq

theorem free_of_resolve {t : Term} {x : Var} (h : s.resolve t = .var x) :
    s.bindings.get? x = none := by
  obtain ⟨xs, hc⟩ := hs.chain_resolve t
  rw [h] at hc
  cases hc.end_chain with
  | free hx => exact hx

end Acyclic

theorem get?_bind (s : State) (x y : Var) (t : Term) :
    (s.bind x t).bindings.get? y = if y = x then some t else s.bindings.get? y :=
  s.bindings.get?_insert x y t

section Bind

variable {s : State} {x : Var} {t : Term}

/-- The chains after a binding: those that ended in the variable go on to the new end. -/
theorem chain_bind (hx : s.bindings.get? x = none) (ht : s.Chain [] t t) (hne : t ≠ .var x)
    {xs : List Var} {u e : Term} (h : s.Chain xs u e) :
    ∃ ys, (s.bind x t).Chain ys u (e.replace x t) := by
  have hend : (s.bind x t).Chain [] t t := by
    cases ht with
    | lit a => exact .lit a
    | @free y hy =>
      have hyx : y ≠ x := fun h => hne (congrArg Term.var h)
      exact .free (by rw [get?_bind, if_neg hyx]; exact hy)
  induction h with
  | lit a => exact ⟨[], .lit a⟩
  | @free y hy =>
    by_cases hyx : y = x
    · subst hyx
      rw [Term.replace_self]
      exact ⟨[y], .follow (by rw [get?_bind, if_pos rfl]) hend⟩
    · rw [Term.replace_ne fun h => hyx (Term.var.inj h)]
      exact ⟨[], .free (by rw [get?_bind, if_neg hyx]; exact hy)⟩
  | @follow y u e xs hy _ ih =>
    have hyx : y ≠ x := fun h => by rw [h, hx] at hy; cases hy
    obtain ⟨ys, hc⟩ := ih
    exact ⟨y :: ys, .follow (by rw [get?_bind, if_neg hyx]; exact hy) hc⟩

variable (hs : s.Acyclic) (hx : s.bindings.get? x = none) (ht : s.resolve t = t)
  (hne : t ≠ .var x)

include hs hx ht hne

theorem acyclic_bind : (s.bind x t).Acyclic := by
  intro u
  obtain ⟨xs, hc⟩ := hs.chain_resolve t
  rw [ht] at hc
  obtain ⟨xs, e, hu⟩ := hs u
  obtain ⟨ys, h⟩ := chain_bind hx hc.end_chain hne hu
  exact ⟨ys, _, h⟩

theorem resolve_bind (u : Term) : (s.bind x t).resolve u = (s.resolve u).replace x t := by
  obtain ⟨xs, hc⟩ := hs.chain_resolve t
  rw [ht] at hc
  obtain ⟨xs, hu⟩ := hs.chain_resolve u
  obtain ⟨ys, h⟩ := chain_bind hx hc.end_chain hne hu
  exact h.resolve_eq

end Bind

end State

end Goalbase

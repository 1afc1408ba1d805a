/-!
# Goalbase.Table

Finite maps as lists of entries with distinct keys.

Mathematical meaning: a table is seen through `get?`. `get?_insert` and `get?_erase` say what a
change does to that view, and `mem_keys` that the keys are those with a value; a new key is put
behind the old ones.
-/

namespace Goalbase

/-- Sets an entry: in place if the key is present, else at the end. -/
def setEntry {κ α : Type} [DecidableEq κ] (k : κ) (a : α) : List (κ × α) → List (κ × α)
  | [] => [(k, a)]
  | (l, b) :: rest => if l = k then (l, a) :: rest else (l, b) :: setEntry k a rest

def valueAt? {κ α : Type} [DecidableEq κ] (k : κ) : List (κ × α) → Option α
  | [] => none
  | (l, b) :: rest => if l = k then some b else valueAt? k rest

theorem mem_keys_setEntry {κ α : Type} [DecidableEq κ] {k l : κ} {a : α}
    {entries : List (κ × α)} (h : l ∈ (setEntry k a entries).map Prod.fst) :
    l = k ∨ l ∈ entries.map Prod.fst := by
  induction entries with
  | nil => simpa [setEntry] using h
  | cons e rest ih =>
    obtain ⟨m, b⟩ := e
    simp only [setEntry] at h
    split at h
    · exact .inr h
    · simp only [List.map_cons, List.mem_cons] at h ⊢
      cases h with
      | inl h => exact .inr (.inl h)
      | inr h =>
        cases ih h with
        | inl h => exact .inl h
        | inr h => exact .inr (.inr h)

theorem nodup_setEntry {κ α : Type} [DecidableEq κ] (k : κ) (a : α) (entries : List (κ × α))
    (h : (entries.map Prod.fst).Nodup) : ((setEntry k a entries).map Prod.fst).Nodup := by
  induction entries with
  | nil => simp [setEntry]
  | cons e rest ih =>
    obtain ⟨m, b⟩ := e
    simp only [List.map_cons, List.nodup_cons] at h
    simp only [setEntry]
    split
    · simpa using h
    · rename_i hne
      simp only [List.map_cons, List.nodup_cons]
      refine ⟨fun hm => ?_, ih h.2⟩
      cases mem_keys_setEntry hm with
      | inl e => exact hne e
      | inr hm => exact h.1 hm

theorem valueAt?_eq_none {κ α : Type} [DecidableEq κ] {k : κ} {entries : List (κ × α)} :
    valueAt? k entries = none ↔ k ∉ entries.map Prod.fst := by
  induction entries with
  | nil => simp [valueAt?]
  | cons e rest ih =>
    obtain ⟨l, b⟩ := e
    simp only [valueAt?, List.map_cons, List.mem_cons, not_or]
    split
    · rename_i h
      simp [h]
    · rename_i h
      exact ih.trans ⟨fun hk => ⟨fun e => h e.symm, hk⟩, And.right⟩

theorem valueAt?_filter {κ α : Type} [DecidableEq κ] (k l : κ) (entries : List (κ × α)) :
    valueAt? l (entries.filter fun e => e.1 ≠ k) = if l = k then none else valueAt? l entries := by
  induction entries with
  | nil => simp [valueAt?]
  | cons e rest ih =>
    obtain ⟨m, b⟩ := e
    by_cases hm : m = k
    · rw [List.filter_cons_of_neg (by simp [hm]), ih, valueAt?]
      split
      · rfl
      · rename_i hl
        rw [if_neg fun e : m = l => hl (e.symm.trans hm)]
    · rw [List.filter_cons_of_pos (by simp [hm]), valueAt?, valueAt?, ih]
      by_cases hl : m = l
      · rw [if_pos hl, if_pos hl, if_neg (hl ▸ hm)]
      · rw [if_neg hl, if_neg hl]

structure Table (κ α : Type) where
  entries : List (κ × α)
  distinct : (entries.map Prod.fst).Nodup

namespace Table

variable {κ α : Type}

def empty : Table κ α := ⟨[], .nil⟩

def size (t : Table κ α) : Nat := t.entries.length

def keys (t : Table κ α) : List κ := t.entries.map Prod.fst

def isEmpty (t : Table κ α) : Bool := t.entries.isEmpty

variable [DecidableEq κ]

def get? (t : Table κ α) (k : κ) : Option α := valueAt? k t.entries

def contains (t : Table κ α) (k : κ) : Bool := (t.get? k).isSome

def insert (t : Table κ α) (k : κ) (a : α) : Table κ α :=
  ⟨setEntry k a t.entries, nodup_setEntry k a t.entries t.distinct⟩

def erase (t : Table κ α) (k : κ) : Table κ α :=
  ⟨t.entries.filter (fun e => e.1 ≠ k),
    t.distinct.sublist (List.filter_sublist.map Prod.fst)⟩

theorem get?_empty (k : κ) : (empty : Table κ α).get? k = none := rfl

theorem get?_insert_self (t : Table κ α) (k : κ) (a : α) : (t.insert k a).get? k = some a := by
  have : ∀ entries : List (κ × α), valueAt? k (setEntry k a entries) = some a := by
    intro entries
    induction entries with
    | nil => simp [setEntry, valueAt?]
    | cons e rest ih =>
      obtain ⟨l, b⟩ := e
      simp only [setEntry]
      split <;> simp_all [valueAt?]
  exact this t.entries

theorem get?_insert_ne (t : Table κ α) {k l : κ} (a : α) (h : l ≠ k) :
    (t.insert k a).get? l = t.get? l := by
  have : ∀ entries : List (κ × α),
      valueAt? l (setEntry k a entries) = valueAt? l entries := by
    intro entries
    induction entries with
    | nil => simp [setEntry, valueAt?, Ne.symm h]
    | cons e rest ih =>
      obtain ⟨m, b⟩ := e
      simp only [setEntry]
      split
      · rename_i e
        subst e
        simp [valueAt?, Ne.symm h]
      · simp only [valueAt?, ih]
  exact this t.entries

theorem get?_insert (t : Table κ α) (k l : κ) (a : α) :
    (t.insert k a).get? l = if l = k then some a else t.get? l := by
  split
  · rename_i h
    rw [h, get?_insert_self]
  · rename_i h
    exact t.get?_insert_ne a h

theorem get?_erase (t : Table κ α) (k l : κ) :
    (t.erase k).get? l = if l = k then none else t.get? l :=
  valueAt?_filter k l t.entries

theorem mem_keys (t : Table κ α) (k : κ) : k ∈ t.keys ↔ t.get? k ≠ none := by
  rw [get?, keys, ne_eq, valueAt?_eq_none, Decidable.not_not]

end Table

end Goalbase

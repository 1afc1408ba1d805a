import Goalbase.Proofs.Storing

/-!
# Goalbase.Proofs.Members

Objects are read by looking their members up.

Putting the members of an object in order keeps what is found under each key
(`Json.member?_normal`), and members in order are determined by that (`Json.ascending_ext`): so the
normal form of an object is determined by the normal forms of what is found in it
(`Json.normal_object_ext`). The children of a node are looked up like its other fields
(`Tree.childrenOf?_eq`).
-/

namespace Goalbase

namespace Json

variable {k : String} {ms ns : List (String × Json)}

theorem member?_cons (k : String) (m : String × Json) (ms : List (String × Json)) :
    member? k (m :: ms) = (member? k ms).or (if m.1 = k then some m.2 else none) := by
  rw [member?]
  cases member? k ms <;> rfl

theorem member?_append (k : String) (ms ns : List (String × Json)) :
    member? k (ms ++ ns) = (member? k ns).or (member? k ms) := by
  induction ms with
  | nil => rw [List.nil_append, member?, Option.or_none]
  | cons m ms ih => rw [List.cons_append, member?_cons, ih, member?_cons, Option.or_assoc]

theorem member?_eq_none (h : k ∉ ms.map Prod.fst) : member? k ms = none := by
  induction ms with
  | nil => rfl
  | cons m ms ih =>
    rw [List.map_cons, List.mem_cons, not_or] at h
    rw [member?_cons, ih h.2, if_neg (Ne.symm h.1)]
    rfl

/-- With distinct keys, each member is found. -/
theorem member?_eq_some_iff (h : (ms.map Prod.fst).Nodup) {j : Json} :
    member? k ms = some j ↔ (k, j) ∈ ms := by
  induction ms with
  | nil => simp [member?]
  | cons m ms ih =>
    rw [List.map_cons, List.nodup_cons] at h
    rw [member?_cons, List.mem_cons, ← ih h.2]
    by_cases hm : m.1 = k
    · subst hm
      rw [member?_eq_none h.1, if_pos rfl, Option.none_or, Option.some.injEq]
      simp [Prod.ext_iff, eq_comm]
    · rw [if_neg hm, Option.or_none]
      simp [Prod.ext_iff, Ne.symm hm]

theorem member?_perm (h : (ms.map Prod.fst).Nodup) (hperm : ms.Perm ns) (k : String) :
    member? k ms = member? k ns := by
  have hns : (ns.map Prod.fst).Nodup := (hperm.map Prod.fst).nodup_iff.1 h
  ext j
  rw [member?_eq_some_iff h, member?_eq_some_iff hns, hperm.mem_iff]

theorem nodup_of_ascending (h : ascending ms = true) : (ms.map Prod.fst).Nodup := by
  have hne : ∀ {a b : String × Json}, a.1 < b.1 → a.1 ≠ b.1 := by
    intro a b hlt he
    rw [he] at hlt
    exact Std.lt_irrefl hlt
  rw [List.nodup_iff_pairwise_ne, List.pairwise_map]
  exact (pairwise_of_ascending h).imp hne

/-- Members in order are determined by what is found among them. -/
theorem ascending_ext (h : ascending ms = true) (h' : ascending ns = true)
    (hmember : ∀ k, member? k ms = member? k ns) : ms = ns := by
  have hms := nodup_of_ascending h
  have hns := nodup_of_ascending h'
  have hperm : ms.Perm ns := by
    refine (List.perm_ext_iff_of_nodup (.of_map _ hms) (.of_map _ hns)).2 fun m => ?_
    rw [← member?_eq_some_iff hms, ← member?_eq_some_iff hns, hmember]
  refine hperm.eq_of_pairwise ?_ (pairwise_of_ascending h) (pairwise_of_ascending h')
  intro a b _ _ hab hba
  exact absurd (Std.lt_trans hab hba) Std.lt_irrefl

theorem member?_setMember (h : ms.Pairwise fun a b => a.1 < b.1) (key : String) (value : Json)
    (k : String) :
    member? k (setMember key value ms) = if key = k then some value else member? k ms := by
  have hfront : ∀ {ns : List (String × Json)}, (∀ n ∈ ns, key < n.1) →
      member? k ((key, value) :: ns) = if key = k then some value else member? k ns := by
    intro ns hlt
    rw [member?_cons]
    split
    · rename_i he
      have hnot : k ∉ ns.map Prod.fst := by
        intro hk
        obtain ⟨n, hn, hnk⟩ := List.mem_map.1 hk
        have hkey : k < n.1 := he ▸ hlt n hn
        rw [hnk] at hkey
        exact Std.lt_irrefl hkey
      rw [member?_eq_none hnot, Option.none_or]
    · rw [Option.or_none]
  induction ms with
  | nil => exact hfront fun n hn => by cases hn
  | cons m ms ih =>
    obtain ⟨hm, hms⟩ := List.pairwise_cons.1 h
    rw [setMember]
    split
    · rename_i hlt
      refine hfront fun n hn => ?_
      rcases List.mem_cons.1 hn with rfl | hn
      · exact hlt
      · exact Std.lt_trans hlt (hm n hn)
    · split
      · rename_i he
        rw [hfront fun n hn => he ▸ hm n hn, member?_cons]
        split
        · rfl
        · rw [if_neg (he ▸ ‹¬key = k›), Option.or_none]
      · rw [member?_cons, ih hms, member?_cons]
        split
        · rw [Option.some_or]
        · rfl

theorem member?_ordered (k : String) (ms : List (String × Json)) :
    member? k (ordered ms) = member? k ms := by
  -- What is put in order first is looked up last, as a later member replaces it.
  have hfold : ∀ ms done : List (String × Json), ascending done = true →
      member? k (ms.foldl (fun done m => setMember m.1 m.2 done) done)
        = (member? k ms).or (member? k done) := by
    intro ms
    induction ms with
    | nil => exact fun _ _ => rfl
    | cons m ms ih =>
      intro done hdone
      rw [List.foldl_cons, ih _ (ascending_setMember m.1 m.2 done hdone),
        member?_setMember (pairwise_of_ascending hdone), member?_cons, Option.or_assoc]
      split <;> rfl
  rw [ordered, hfold ms [] rfl, member?, Option.or_none]

theorem member?_normalMembers (k : String) (ms : List (String × Json)) :
    member? k (normalMembers ms) = (member? k ms).map normal := by
  induction ms with
  | nil => rfl
  | cons m ms ih =>
    obtain ⟨l, j⟩ := m
    rw [normalMembers, member?_cons, ih, member?_cons]
    cases member? k ms with
    | some found => rfl
    | none => split <;> rfl

/-- In the normal form of an object, the normal forms of its members are found. -/
theorem member?_normal (k : String) (ms : List (String × Json)) :
    member? k (ordered (normalMembers ms)) = (member? k ms).map normal := by
  rw [member?_ordered, member?_normalMembers]

/-- The normal form of an object is determined by the normal forms of what is found in it. -/
theorem normal_object_ext (h : ∀ k, (member? k ms).map normal = (member? k ns).map normal) :
    (object ms).normal = (object ns).normal := by
  rw [normal, normal]
  refine congrArg object (ascending_ext (ascending_ordered _) (ascending_ordered _) fun k => ?_)
  rw [member?_normal, member?_normal, h k]

section

variable {α : Type} (f : List Json → Option α) (k l : String) (ms : List (String × Json))

/-- One field of an object in normal form. -/
theorem fieldsOf?_one :
    (fieldsOf? (ordered (normalMembers ms)) [k]).bind f
      = (member? k ms).bind fun j => f [j.normal] := by
  rw [fieldsOf?, fieldsOf?, member?_normal]
  cases member? k ms <;> rfl

/-- Two fields of an object in normal form. -/
theorem fieldsOf?_two :
    (fieldsOf? (ordered (normalMembers ms)) [k, l]).bind f
      = (member? k ms).bind fun i => (member? l ms).bind fun j => f [i.normal, j.normal] := by
  rw [fieldsOf?, fieldsOf?, fieldsOf?, member?_normal, member?_normal]
  cases member? k ms with
  | none => rfl
  | some i => cases member? l ms <;> rfl

end

end Json

/-- A tag is read from the normal form of a value like from the value itself. -/
theorem Position.tag?_normal (p : Position) (tags : List String) (j : Option Json) :
    p.tag? tags (j.map Json.normal) = p.tag? tags j := by
  cases j with
  | none => rfl
  | some j => cases j <;> rfl

theorem Tree.childrenOf?_eq {ms : List (String × Json)} (h : (ms.map Prod.fst).Nodup) :
    childrenOf? ms = (Json.member? "goals" ms).bind listOfJson? := by
  induction ms with
  | nil => rfl
  | cons m ms ih =>
    obtain ⟨k, j⟩ := m
    rw [List.map_cons, List.nodup_cons] at h
    rw [childrenOf?, Json.member?_cons]
    split
    · rename_i hk
      rw [Json.member?_eq_none (hk ▸ h.1), Option.none_or]
      rfl
    · rw [Option.or_none]
      exact ih h.2

end Goalbase

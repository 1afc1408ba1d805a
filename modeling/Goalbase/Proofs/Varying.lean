import Goalbase.Proofs.Grammar
import Goalbase.Proofs.Roles

/-!
# Goalbase.Proofs.Varying

Scripts that differ in what does not matter.

`Varied` relates two scripts for values in a role when one comes from the other by reordering the
members of objects with distinct keys and by adding members whose names are not used where they
stand, anywhere inside. `Varied.alike` says that a reader in the role takes them for the same. It is
proved along the relation, one step of it at a time: inside the goal by what the roles say about
elements and members, and for the envelope, which is read from the parts of the document, by what
the two slots `Document.slot?` hold (`Tree.ofDocument?_congr`).
-/

namespace Goalbase

/-! ## The envelope -/

namespace Document

variable {ms ns : List (Option String × Option Json)} {name : String}

/-- The value of a field from the members of its name: there may be one, and it must be readable. -/
def only? : List (Option String × Option Json) → Option (Option Json)
  | [] => some none
  | [(_, some j)] => some (some j)
  | _ => none

theorem only?_cons_cons (m m' : Option String × Option Json)
    (ms : List (Option String × Option Json)) : only? (m :: m' :: ms) = none := by
  obtain ⟨k, x⟩ := m
  cases x <;> rfl

/-- What an object gives for a field. -/
def slot? (name : String) (ms : List (Option String × Option Json)) : Option (Option Json) :=
  only? (ms.filter fun m => m.1 == some name)

theorem fields?_members (names : List String) (ms : List (Option String × Option Json)) :
    fields? names (.members ms) = if ms.all (fun m => m.1.isSome) then
      Utf8.allSome (names.map fun name => slot? name ms) else none := rfl

/-- Two fields that a reader in the role takes for the same. -/
def SameSlot (role : Role) : Option (Option Json) → Option (Option Json) → Prop :=
  Option.Rel role.SameIf

theorem SameSlot.of_eq (role : Role) {x y : Option (Option Json)} (h : x = y) :
    SameSlot role x y := by
  subst h
  cases x with
  | none => exact .none
  | some x => exact .some (.refl role x)

theorem slot?_perm (h : ms.Perm ns) (hle : (ms.filter fun m => m.1 == some name).length ≤ 1) :
    slot? name ms = slot? name ns := by
  have hperm := h.filter fun m => m.1 == some name
  rw [slot?, slot?]
  cases hms : ms.filter fun m => m.1 == some name with
  | nil =>
    rw [hms, List.nil_perm] at hperm
    rw [hperm]
  | cons m rest =>
    cases rest with
    | nil =>
      rw [hms, List.singleton_perm] at hperm
      rw [hperm]
    | cons m' rest =>
      rw [hms, List.length_cons, List.length_cons] at hle
      omega

/-- Where one member has the name and it is readable, it is what the object gives. -/
theorem slot?_eq_some {x : Json} (h : ms.Perm ((some name, some x) :: ns))
    (hns : ∀ m ∈ ns, m.1 ≠ some name) : slot? name ms = some (some x) := by
  have hfilter : ((some name, some x) :: ns).filter (fun m => m.1 == some name)
      = [(some name, some x)] := by
    have hnil : ns.filter (fun m => m.1 == some name) = [] := by
      rw [List.filter_eq_nil_iff]
      exact fun m hm he => hns m hm (eq_of_beq he)
    have htrue : (some name == some name) = true := beq_self_eq_true _
    simp only [List.filter_cons, htrue, if_true, hnil]
  rw [← slot?_perm h.symm (by rw [hfilter]; exact Nat.le_refl 1), slot?, hfilter]
  rfl

theorem length_filter_le (hkeys : (ms.filterMap Prod.fst).Nodup) (name : String) :
    (ms.filter fun m => m.1 == some name).length ≤ 1 := by
  have hname : ∀ m ∈ ms.filter (fun m => m.1 == some name), m.1 = some name := fun m hm =>
    eq_of_beq (List.mem_filter.1 hm).2
  have hnodup := hkeys.sublist ((List.filter_sublist (p := fun m => m.1 == some name)).filterMap _)
  cases hms : ms.filter fun m => m.1 == some name with
  | nil => exact Nat.zero_le 1
  | cons m rest =>
    cases rest with
    | nil => exact Nat.le_refl 1
    | cons m' rest =>
      rw [hms] at hname hnodup
      rw [List.filterMap_cons_some (hname m List.mem_cons_self),
        List.filterMap_cons_some (hname m' (List.mem_cons_of_mem _ List.mem_cons_self))] at hnodup
      exact absurd List.mem_cons_self (List.nodup_cons.1 hnodup).1

theorem slot?_of_ne {k : Option String} (hk : k ≠ some name) (x : Option Json)
    (ms ns : List (Option String × Option Json)) :
    slot? name (ms ++ (k, x) :: ns) = slot? name (ms ++ ns) := by
  have hfalse : ((k, x).1 == some name) = false := beq_eq_false_iff_ne.2 hk
  rw [slot?, slot?, List.filter_append, List.filter_cons_of_neg (by rw [hfalse]; decide),
    ← List.filter_append]

theorem sameSlot_slot? {role : Role} {x y : Option Json} (h : role.SameIf x y)
    (ms ns : List (Option String × Option Json)) :
    SameSlot role (slot? name (ms ++ (some name, x) :: ns))
      (slot? name (ms ++ (some name, y) :: ns)) := by
  have htrue : (some name == some name) = true := beq_self_eq_true _
  simp only [slot?, List.filter_append, List.filter_cons, htrue, if_true]
  cases ms.filter (fun m => m.1 == some name) with
  | nil =>
    cases ns.filter (fun m => m.1 == some name) with
    | nil =>
      cases h with
      | none => exact .none
      | some h => exact .some (.some h)
    | cons n ns =>
      rw [List.nil_append, only?_cons_cons, List.nil_append, only?_cons_cons]
      exact .none
  | cons m ms =>
    -- There are two members of the name, whatever they hold.
    have hnone : ∀ z,
        only? (m :: ms ++ (some name, z) :: ns.filter fun m => m.1 == some name) = none := by
      intro z
      cases ms <;> exact only?_cons_cons _ _ _
    rw [hnone, hnone]
    exact .none

end Document

theorem Tree.version?_congr {v w : Json} (h : v.normal = w.normal) : version? v = version? w := by
  have hnormal : ∀ j : Json, version? j.normal = version? j := by
    intro j
    cases j <;> rfl
  rw [← hnormal v, h, hnormal]

open Document (slot? SameSlot) in
theorem Tree.ofDocument?_congr {ms ns : List (Option String × Option Json)}
    (hkeys : ms.all (fun m => m.1.isSome) = ns.all fun m => m.1.isSome)
    (hversion : SameSlot .plain (slot? "format_version" ms) (slot? "format_version" ns))
    (hgoal : SameSlot (.goal .outermost) (slot? "goal" ms) (slot? "goal" ns)) :
    ofDocument? (.members ms) = ofDocument? (.members ns) := by
  simp only [ofDocument?, Document.fields?_members, List.map_cons, List.map_nil, hkeys]
  generalize slot? "format_version" ms = v, slot? "format_version" ns = v' at hversion
  generalize slot? "goal" ms = g, slot? "goal" ns = g' at hgoal
  -- Where a field is missing or cannot be read, it is so on both sides.
  cases ns.all fun m => m.1.isSome with
  | false => rfl
  | true =>
    cases hversion with
    | none => rfl
    | some hversion =>
      cases hgoal with
      | none => cases hversion <;> rfl
      | some hgoal =>
        cases hversion with
        | none => cases hgoal <;> rfl
        | some hversion =>
          cases hgoal with
          | none => rfl
          | some hgoal =>
            rw [Role.Same] at hversion
            rw [Role.Same] at hgoal
            simp only [if_true, Utf8.allSome, version?_congr hversion, hgoal]

namespace Script

variable {ms ns : List (Option String × Script)}

/-! ## Values part by part -/

theorem values?_append (ws vs : List Script) :
    values? (ws ++ vs) = (values? ws).bind fun js => (values? vs).map fun is => js ++ is := by
  induction ws with
  | nil =>
    rw [List.nil_append, values?]
    cases values? vs <;> rfl
  | cons w ws ih =>
    rw [List.cons_append, values?, values?, ih]
    cases value? w <;> cases values? ws <;> cases values? vs <;> rfl

theorem memberValues?_append (ms ns : List (Option String × Script)) :
    memberValues? (ms ++ ns)
      = (memberValues? ms).bind fun js => (memberValues? ns).map fun is => js ++ is := by
  induction ms with
  | nil =>
    rw [List.nil_append, memberValues?]
    cases memberValues? ns <;> rfl
  | cons m ms ih =>
    obtain ⟨k, w⟩ := m
    simp only [List.cons_append, memberValues?, ih]
    cases k <;> cases value? w <;> cases memberValues? ms <;> cases memberValues? ns <;> rfl

theorem memberValues?_cons {k : Option String} {w : Script} {js : List (String × Json)}
    (h : memberValues? ((k, w) :: ms) = some js) :
    ∃ l j is, k = some l ∧ w.value? = some j ∧ memberValues? ms = some is ∧ js = (l, j) :: is := by
  simp only [memberValues?] at h
  split at h
  · rename_i l j is hw hms
    cases h
    exact ⟨l, j, is, rfl, hw, hms, rfl⟩
  · cases h

theorem map_fst_memberValues? {js : List (String × Json)} (h : memberValues? ms = some js) :
    js.map Prod.fst = ms.filterMap Prod.fst := by
  induction ms generalizing js with
  | nil =>
    cases h
    rfl
  | cons m ms ih =>
    obtain ⟨k, w⟩ := m
    obtain ⟨l, j, is, rfl, -, his, rfl⟩ := memberValues?_cons h
    rw [List.map_cons, ih his]
    rfl

theorem memberValues?_perm {js : List (String × Json)} (h : ms.Perm ns)
    (hjs : memberValues? ms = some js) : ∃ is, memberValues? ns = some is ∧ js.Perm is := by
  induction h generalizing js with
  | nil =>
    cases hjs
    exact ⟨[], rfl, .nil⟩
  | cons m _ ih =>
    obtain ⟨k, w⟩ := m
    obtain ⟨l, j, is, rfl, hw, his, rfl⟩ := memberValues?_cons hjs
    obtain ⟨is', his', hperm⟩ := ih his
    exact ⟨(l, j) :: is', by simp only [memberValues?, hw, his'], hperm.cons (l, j)⟩
  | swap m m' ms =>
    obtain ⟨k, w⟩ := m
    obtain ⟨k', w'⟩ := m'
    obtain ⟨l, j, is, rfl, hw, his, rfl⟩ := memberValues?_cons hjs
    obtain ⟨l', j', is', rfl, hw', his', rfl⟩ := memberValues?_cons his
    exact ⟨(l', j') :: (l, j) :: is', by simp only [memberValues?, hw, hw', his'], .swap _ _ _⟩
  | trans _ _ ih ih' =>
    obtain ⟨is, his, hperm⟩ := ih hjs
    obtain ⟨is', his', hperm'⟩ := ih' his
    exact ⟨is', his', hperm.trans hperm'⟩

end Script

/-! ## Scripts that differ in what does not matter -/

open Script (value? memberValues?)

/-- The tag of an object that is read in a role. -/
def Role.tagOf? (role : Role) (ms : List (Option String × Script)) : Option Nat :=
  (memberValues? ms).bind fun js => role.tag? (Json.member? "type" js)

theorem Role.tagOf?_envelope (ms : List (Option String × Script)) :
    Role.envelope.tagOf? ms = none := by
  rw [tagOf?]
  cases memberValues? ms <;> rfl

/-- Two scripts that differ, for values that stand in a role, in what does not matter: in the order
of the members of objects whose keys are distinct, and in members whose names are not used where
they stand. Such a member must be readable itself, except in the envelope. -/
inductive Varied : Role → Script → Script → Prop where
  | refl (role : Role) (w : Script) : Varied role w w
  | trans {role : Role} {u v w : Script} (h : Varied role u v) (h' : Varied role v w) :
      Varied role u w
  | reorder (role : Role) {ms ns : List (Option String × Script)}
      (hkeys : (ms.filterMap Prod.fst).Nodup) (h : ms.Perm ns) :
      Varied role (.object ms) (.object ns)
  | element {role : Role} (hrole : role ≠ .envelope) {w w' : Script}
      (h : Varied role.element w w') (ws vs : List Script) :
      Varied role (.array (ws ++ w :: vs)) (.array (ws ++ w' :: vs))
  | member {role : Role} (ms ns : List (Option String × Script)) {key : Option String}
      {w w' : Script} (h : Varied (role.member (role.tagOf? (ms ++ (key, w) :: ns)) key) w w') :
      Varied role (.object (ms ++ (key, w) :: ns)) (.object (ms ++ (key, w') :: ns))
  | added (role : Role) (hrole : role.IsNode) (ms ns : List (Option String × Script))
      {name : String} (hname : role.field? (role.tagOf? (ms ++ ns)) name = none) {w : Script}
      (hw : role = .envelope ∨ w.value?.isSome) :
      Varied role (.object (ms ++ ns)) (.object (ms ++ (some name, w) :: ns))

namespace Varied

variable {role : Role} {w w' : Script} {ms ns : List (Option String × Script)}

theorem sameIf_reorder (role : Role) (hkeys : (ms.filterMap Prod.fst).Nodup) (h : ms.Perm ns) :
    role.SameIf (value? (.object ms)) (value? (.object ns)) := by
  rw [value?, value?]
  cases hms : memberValues? ms with
  | none =>
    cases hns : memberValues? ns with
    | none => exact .none
    | some is =>
      obtain ⟨js, hjs, -⟩ := Script.memberValues?_perm h.symm hns
      rw [hms] at hjs
      cases hjs
  | some js =>
    obtain ⟨is, his, hperm⟩ := Script.memberValues?_perm h hms
    rw [← Script.map_fst_memberValues? hms] at hkeys
    rw [his]
    refine .some (role.same_of_normal_eq (Json.normal_object_ext fun k => ?_))
    rw [Json.member?_perm hkeys hperm]

theorem sameIf_element (h : role.element.SameIf w.value? w'.value?) (ws vs : List Script) :
    role.SameIf (value? (.array (ws ++ w :: vs))) (value? (.array (ws ++ w' :: vs))) := by
  simp only [value?, Script.values?_append, Script.values?]
  cases Script.values? ws with
  | none => exact .none
  | some js =>
    cases Script.values? vs with
    | none =>
      cases w.value? <;> cases w'.value? <;> exact .none
    | some is =>
      generalize w.value? = x, w'.value? = y at h
      cases h with
      | none => exact .none
      | some h => exact .some (Role.same_element h js is)

theorem sameIf_member {key : Option String}
    (h : (role.member (role.tagOf? (ms ++ (key, w) :: ns)) key).SameIf w.value? w'.value?) :
    role.SameIf (value? (.object (ms ++ (key, w) :: ns)))
      (value? (.object (ms ++ (key, w') :: ns))) := by
  simp only [Role.tagOf?, value?, Script.memberValues?_append, Script.memberValues?] at h ⊢
  generalize memberValues? ms = js, memberValues? ns = is, w.value? = x, w'.value? = y at h ⊢
  cases js with
  | none => exact .none
  | some js =>
    cases key with
    | none => exact .none
    | some k =>
      cases is with
      | none => cases x <;> cases y <;> exact .none
      | some is =>
        cases h with
        | none => exact .none
        | some h => exact .some (Role.same_member h)

theorem sameIf_added (hrole : role.IsNode) {name : String}
    (hname : role.field? (role.tagOf? (ms ++ ns)) name = none) (hw : w.value?.isSome) :
    role.SameIf (value? (.object (ms ++ ns))) (value? (.object (ms ++ (some name, w) :: ns))) := by
  obtain ⟨x, hx⟩ := Option.isSome_iff_exists.1 hw
  simp only [Role.tagOf?, value?, Script.memberValues?_append, Script.memberValues?, hx] at hname ⊢
  generalize memberValues? ms = js, memberValues? ns = is at hname ⊢
  cases js with
  | none => exact .none
  | some js =>
    cases is with
    | none => exact .none
    | some is => exact .some (Role.same_added hrole hname x)

/-- What a reader in the role makes of the two scripts is the same. -/
def Alike : Role → Script → Script → Prop
  | .envelope, w, w' => Tree.ofDocument? w.document = Tree.ofDocument? w'.document
  | role, w, w' => role.SameIf w.value? w'.value?

theorem alike_iff (h : role ≠ .envelope) : Alike role w w' ↔ role.SameIf w.value? w'.value? := by
  cases role with
  | envelope => exact absurd rfl h
  | _ => exact Iff.rfl

/-- The outermost object is read by its two fields. -/
theorem alike_envelope
    (hkeys : (ms.all fun m => m.1.isSome) = ns.all fun m => m.1.isSome)
    (hslot : ∀ name r, Role.envelope.field? none name = some r → Document.SameSlot r
      (Document.slot? name (ms.map fun m => (m.1, m.2.value?)))
      (Document.slot? name (ns.map fun m => (m.1, m.2.value?)))) :
    Alike .envelope (.object ms) (.object ns) := by
  refine Tree.ofDocument?_congr ?_ (hslot _ _ rfl) (hslot _ _ rfl)
  rw [List.all_map, List.all_map]
  exact hkeys

theorem alike_envelope_reorder (hkeys : (ms.filterMap Prod.fst).Nodup) (h : ms.Perm ns) :
    Alike .envelope (.object ms) (.object ns) := by
  refine alike_envelope ?_ fun name r _ => .of_eq r ?_
  · exact h.all_eq
  · refine Document.slot?_perm (h.map _) (Document.length_filter_le ?_ name)
    rw [List.filterMap_map]
    exact hkeys

theorem alike_envelope_member {key : Option String}
    (h : (Role.envelope.member (Role.envelope.tagOf? (ms ++ (key, w) :: ns)) key).SameIf
      w.value? w'.value?) :
    Alike .envelope (.object (ms ++ (key, w) :: ns)) (.object (ms ++ (key, w') :: ns)) := by
  refine alike_envelope ?_ fun name r hr => ?_
  · simp only [List.all_append, List.all_cons]
  · simp only [List.map_append, List.map_cons]
    by_cases hkey : key = some name
    · subst hkey
      rw [Role.tagOf?_envelope, Role.member, hr] at h
      exact Document.sameSlot_slot? h _ _
    · rw [Document.slot?_of_ne hkey, Document.slot?_of_ne hkey]
      exact .of_eq r rfl

theorem alike_envelope_added {name : String}
    (hname : Role.envelope.field? (Role.envelope.tagOf? (ms ++ ns)) name = none) :
    Alike .envelope (.object (ms ++ ns)) (.object (ms ++ (some name, w) :: ns)) := by
  refine alike_envelope ?_ fun l r hr => .of_eq r ?_
  · simp [List.all_append, List.all_cons]
  · have hne : some name ≠ some l := by
      intro he
      cases he
      rw [Role.tagOf?_envelope, hr] at hname
      cases hname
    simp only [List.map_append, List.map_cons]
    rw [Document.slot?_of_ne hne]

theorem alike (h : Varied role w w') : Alike role w w' := by
  -- The envelope is apart in each case: it is read from the document, not from a value.
  induction h with
  | refl role w =>
    cases role with
    | envelope => rfl
    | _ => exact Role.SameIf.refl _ _
  | @trans role _ _ _ _ _ ih ih' =>
    cases role with
    | envelope => exact Eq.trans ih ih'
    | _ => exact Role.SameIf.trans ih ih'
  | @reorder role ms ns hkeys h =>
    cases role with
    | envelope => exact alike_envelope_reorder hkeys h
    | _ => exact sameIf_reorder _ hkeys h
  | @element role hrole w w' _ ws vs ih =>
    have helement : role.element ≠ .envelope := by cases role <;> exact fun he => by cases he
    exact (alike_iff hrole).2 (sameIf_element ((alike_iff helement).1 ih) ws vs)
  | @member role ms ns key w w' _ ih =>
    have hmember := (alike_iff (Role.member_ne_envelope role _ key)).1 ih
    cases role with
    | envelope => exact alike_envelope_member hmember
    | _ => exact sameIf_member hmember
  | @added role hrole ms ns name hname w hw =>
    cases role with
    | envelope => exact alike_envelope_added hname
    | goal p => exact sameIf_added hrole hname (hw.resolve_left (by simp))
    | term => exact sameIf_added hrole hname (hw.resolve_left (by simp))
    | _ => cases hrole

end Varied

end Goalbase

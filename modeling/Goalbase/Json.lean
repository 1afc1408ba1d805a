import Goalbase.Number

/-!
# Goalbase.Json

JSON values as they are written, and literals, which are JSON values up to how they are written.

Mathematical meaning: a `Json` keeps the members of an object in the order given, repetitions
included. `normal` puts every object into ascending key order, where the last of several members
with one key counts; `normal_isNormal` says the result is ordered throughout. A `Literal` is an
ordered value, so that it stands for a tree of finite maps. `same` is equality of literals: it is an
equivalence, coarser than `=` only in that the two zeros among doubles are the same.
-/

namespace Goalbase

/-- A JSON value with its members in written order. -/
inductive Json where
  | null
  | bool (value : Bool)
  | number (value : Number)
  | string (text : String)
  | array (elements : List Json)
  | object (members : List (String × Json))

namespace Json

/-- Sets a member in a list of members in ascending key order. -/
def setMember (key : String) (value : Json) : List (String × Json) → List (String × Json)
  | [] => [(key, value)]
  | (k, v) :: rest =>
    if key < k then (key, value) :: (k, v) :: rest
    else if key = k then (key, value) :: rest
    else (k, v) :: setMember key value rest

/-- The members in ascending key order, the last one of each key. -/
def ordered (members : List (String × Json)) : List (String × Json) :=
  members.foldl (fun done m => setMember m.1 m.2 done) []

def ascending : List (String × Json) → Bool
  | [] => true
  | [_] => true
  | (k, _) :: (l, v) :: rest => decide (k < l) && ascending ((l, v) :: rest)

mutual

/-- The value with every object in ascending key order. -/
def normal : Json → Json
  | .null => .null
  | .bool b => .bool b
  | .number n => .number n
  | .string s => .string s
  | .array elements => .array (normalElements elements)
  | .object members => .object (ordered (normalMembers members))

def normalElements : List Json → List Json
  | [] => []
  | j :: rest => normal j :: normalElements rest

def normalMembers : List (String × Json) → List (String × Json)
  | [] => []
  | (k, j) :: rest => (k, normal j) :: normalMembers rest

end

mutual

def isNormal : Json → Bool
  | .null => true
  | .bool _ => true
  | .number _ => true
  | .string _ => true
  | .array elements => areNormal elements
  | .object members => ascending members && valuesNormal members

def areNormal : List Json → Bool
  | [] => true
  | j :: rest => isNormal j && areNormal rest

def valuesNormal : List (String × Json) → Bool
  | [] => true
  | (_, j) :: rest => isNormal j && valuesNormal rest

end

mutual

/-- Equality of values, where numbers are compared as literals and objects member by member. -/
def same : Json → Json → Bool
  | .null, .null => true
  | .bool a, .bool b => a == b
  | .number a, .number b => a.same b
  | .string a, .string b => a == b
  | .array xs, .array ys => sameElements xs ys
  | .object xs, .object ys => sameMembers xs ys
  | _, _ => false

def sameElements : List Json → List Json → Bool
  | [], [] => true
  | x :: xs, y :: ys => same x y && sameElements xs ys
  | _, _ => false

def sameMembers : List (String × Json) → List (String × Json) → Bool
  | [], [] => true
  | (k, x) :: xs, (l, y) :: ys => k == l && same x y && sameMembers xs ys
  | _, _ => false

end

/-- The member of a key: the last one written counts. -/
def member? (key : String) : List (String × Json) → Option Json
  | [] => none
  | (k, j) :: rest =>
    match member? key rest with
    | some found => some found
    | none => if k = key then some j else none

theorem ascending_setMember (key : String) (value : Json) :
    ∀ members : List (String × Json), ascending members = true →
      ascending (setMember key value members) = true
  | [], _ => rfl
  | [(k, v)], _ => by
    simp only [setMember]
    split
    · simp [ascending, *]
    · split
      · rfl
      · rename_i h h'
        have : k < key := Std.lt_of_le_of_ne (Std.not_lt.1 h) (fun e => h' e.symm)
        simp [ascending, this]
  | (k, v) :: (l, w) :: rest, h => by
    simp only [ascending, Bool.and_eq_true, decide_eq_true_eq] at h
    have ih := ascending_setMember key value ((l, w) :: rest) h.2
    simp only [setMember]
    split
    · simp [ascending, *]
    · split
      · rename_i h' e
        subst e
        simp [ascending, h]
      · rename_i h' e
        have : k < key := Std.lt_of_le_of_ne (Std.not_lt.1 h') (fun x => e x.symm)
        split
        · simp_all [ascending, setMember]
        · split <;> simp_all [ascending, setMember]

theorem ascending_ordered (members : List (String × Json)) : ascending (ordered members) = true := by
  have : ∀ (ms done : List (String × Json)), ascending done = true →
      ascending (ms.foldl (fun done m => setMember m.1 m.2 done) done) = true := by
    intro ms
    induction ms with
    | nil => exact fun _ h => h
    | cons m rest ih => exact fun done h => ih _ (ascending_setMember m.1 m.2 done h)
  exact this members [] rfl

theorem valuesNormal_setMember (key : String) (value : Json) (hv : isNormal value = true) :
    ∀ members : List (String × Json), valuesNormal members = true →
      valuesNormal (setMember key value members) = true
  | [], _ => by simp [setMember, valuesNormal, hv]
  | (k, v) :: rest, h => by
    simp only [valuesNormal, Bool.and_eq_true] at h
    have ih := valuesNormal_setMember key value hv rest h.2
    simp only [setMember]
    split
    · simp [valuesNormal, hv, h]
    · split
      · simp [valuesNormal, hv, h]
      · simp [valuesNormal, ih, h]

theorem valuesNormal_ordered (members : List (String × Json)) (h : valuesNormal members = true) :
    valuesNormal (ordered members) = true := by
  have : ∀ (ms done : List (String × Json)), valuesNormal ms = true → valuesNormal done = true →
      valuesNormal (ms.foldl (fun done m => setMember m.1 m.2 done) done) = true := by
    intro ms
    induction ms with
    | nil => exact fun _ _ h => h
    | cons m rest ih =>
      intro done hm hd
      simp only [valuesNormal, Bool.and_eq_true] at hm
      exact ih _ hm.2 (valuesNormal_setMember m.1 m.2 hm.1 done hd)
  exact this members [] h rfl

mutual

theorem normal_isNormal : ∀ j : Json, isNormal (normal j) = true
  | .null => rfl
  | .bool _ => rfl
  | .number _ => rfl
  | .string _ => rfl
  | .array elements => by
    simp only [normal, isNormal]
    exact normalElements_areNormal elements
  | .object members => by
    simp only [normal, isNormal, Bool.and_eq_true]
    exact ⟨ascending_ordered _, valuesNormal_ordered _ (normalMembers_valuesNormal members)⟩

theorem normalElements_areNormal : ∀ js : List Json, areNormal (normalElements js) = true
  | [] => rfl
  | j :: rest => by
    simp only [normalElements, areNormal, Bool.and_eq_true]
    exact ⟨normal_isNormal j, normalElements_areNormal rest⟩

theorem normalMembers_valuesNormal :
    ∀ ms : List (String × Json), valuesNormal (normalMembers ms) = true
  | [] => rfl
  | (k, j) :: rest => by
    simp only [normalMembers, valuesNormal, Bool.and_eq_true]
    exact ⟨normal_isNormal j, normalMembers_valuesNormal rest⟩

end

mutual

theorem same_refl : ∀ j : Json, same j j = true
  | .null => rfl
  | .bool _ => by simp [same]
  | .number n => by simp only [same]; exact n.same_refl
  | .string _ => by simp [same]
  | .array elements => by simp only [same]; exact sameElements_refl elements
  | .object members => by simp only [same]; exact sameMembers_refl members

theorem sameElements_refl : ∀ js : List Json, sameElements js js = true
  | [] => rfl
  | j :: rest => by simp only [sameElements, same_refl j, sameElements_refl rest, Bool.and_self]

theorem sameMembers_refl : ∀ ms : List (String × Json), sameMembers ms ms = true
  | [] => rfl
  | (k, j) :: rest => by
    simp only [sameMembers, same_refl j, sameMembers_refl rest, beq_self_eq_true, Bool.and_self]

end

end Json

/-- A JSON value whose objects are in ascending key order: a tree of finite maps. -/
structure Literal where
  json : Json
  isNormal : json.isNormal = true

namespace Literal

def ofJson (j : Json) : Literal := ⟨j.normal, j.normal_isNormal⟩

def null : Literal := ⟨.null, rfl⟩

def bool (b : Bool) : Literal := ⟨.bool b, rfl⟩

def number (n : Number) : Literal := ⟨.number n, rfl⟩

def string (s : String) : Literal := ⟨.string s, rfl⟩

def word (w : Int64) : Literal := number (.ofWord w)

def same (a b : Literal) : Bool := a.json.same b.json

def signedWord? (a : Literal) : Option Int :=
  match a.json with
  | .number n => n.signedWord?
  | _ => none

theorem same_refl (a : Literal) : same a a = true := a.json.same_refl

instance : Inhabited Literal := ⟨null⟩

end Literal

end Goalbase

import Goalbase.Term

/-!
# Goalbase.Proofs.Literals

Equality of literals, and what it leaves alone.

`same` is an equivalence on JSON values, literals and terms (`Json.same_comm`, `Json.same_trans`),
so literals up to `same` form a type of their own, `Datum`. Kinds cannot tell equal literals apart
(`Kind.admits_of_same`).
-/

namespace Goalbase

namespace Json

mutual

theorem same_comm : ∀ x y : Json, same x y = same y x
  | .null, y => by cases y <;> rfl
  | .bool a, y => by
    cases y with
    | bool b => exact BEq.comm
    | _ => rfl
  | .number m, y => by
    cases y with
    | number n => exact m.same_comm n
    | _ => rfl
  | .string s, y => by
    cases y with
    | string t => exact BEq.comm
    | _ => rfl
  | .array xs, y => by
    cases y with
    | array ys => exact sameElements_comm xs ys
    | _ => rfl
  | .object xs, y => by
    cases y with
    | object ys => exact sameMembers_comm xs ys
    | _ => rfl

theorem sameElements_comm : ∀ xs ys : List Json, sameElements xs ys = sameElements ys xs
  | [], ys => by cases ys <;> rfl
  | x :: xs, ys => by
    cases ys with
    | nil => rfl
    | cons y ys => simp only [sameElements, same_comm x y, sameElements_comm xs ys]

theorem sameMembers_comm :
    ∀ xs ys : List (String × Json), sameMembers xs ys = sameMembers ys xs
  | [], ys => by cases ys <;> rfl
  | (k, x) :: xs, ys => by
    cases ys with
    | nil => rfl
    | cons m ys =>
      have hk : (k == m.1) = (m.1 == k) := BEq.comm
      simp only [sameMembers, hk, same_comm x m.2, sameMembers_comm xs ys]

end

mutual

theorem same_trans : ∀ {x y z : Json}, same x y = true → same y z = true → same x z = true
  | .null, y, z, h, h' => by
    cases y with
    | null => exact h'
    | _ => cases h
  | .bool a, y, z, h, h' => by
    cases y with
    | bool b =>
      simp only [same, beq_iff_eq] at h
      rw [h]
      exact h'
    | _ => cases h
  | .number m, y, z, h, h' => by
    cases y with
    | number n =>
      cases z with
      | number l => exact Number.same_trans h h'
      | _ => cases h'
    | _ => cases h
  | .string s, y, z, h, h' => by
    cases y with
    | string t =>
      simp only [same, beq_iff_eq] at h
      rw [h]
      exact h'
    | _ => cases h
  | .array xs, y, z, h, h' => by
    cases y with
    | array ys =>
      cases z with
      | array zs => exact sameElements_trans h h'
      | _ => cases h'
    | _ => cases h
  | .object xs, y, z, h, h' => by
    cases y with
    | object ys =>
      cases z with
      | object zs => exact sameMembers_trans h h'
      | _ => cases h'
    | _ => cases h

theorem sameElements_trans : ∀ {xs ys zs : List Json},
    sameElements xs ys = true → sameElements ys zs = true → sameElements xs zs = true
  | [], ys, zs, h, h' => by
    cases ys with
    | nil => exact h'
    | cons y ys => cases h
  | x :: xs, ys, zs, h, h' => by
    cases ys with
    | nil => cases h
    | cons y ys =>
      cases zs with
      | nil => cases h'
      | cons z zs =>
        simp only [sameElements, Bool.and_eq_true] at h h' ⊢
        exact ⟨same_trans h.1 h'.1, sameElements_trans h.2 h'.2⟩

theorem sameMembers_trans : ∀ {xs ys zs : List (String × Json)},
    sameMembers xs ys = true → sameMembers ys zs = true → sameMembers xs zs = true
  | [], ys, zs, h, h' => by
    cases ys with
    | nil => exact h'
    | cons y ys => cases h
  | (k, x) :: xs, ys, zs, h, h' => by
    cases ys with
    | nil => cases h
    | cons m ys =>
      cases zs with
      | nil => cases h'
      | cons n zs =>
        simp only [sameMembers, Bool.and_eq_true, beq_iff_eq] at h h' ⊢
        exact ⟨⟨h.1.1.trans h'.1.1, same_trans h.1.2 h'.1.2⟩, sameMembers_trans h.2 h'.2⟩

end

end Json

namespace Literal

theorem same_comm (a b : Literal) : same a b = same b a := Json.same_comm a.json b.json

theorem same_symm {a b : Literal} (h : same a b = true) : same b a = true := by
  rw [same_comm, h]

theorem same_trans {a b c : Literal} (h : same a b = true) (h' : same b c = true) :
    same a c = true := Json.same_trans h h'

instance setoid : Setoid Literal where
  r a b := same a b = true
  iseqv := ⟨same_refl, same_symm, same_trans⟩

end Literal

/-- A literal up to equality. -/
def Datum : Type := Quotient Literal.setoid

namespace Literal

def datum (a : Literal) : Datum := Quotient.mk Literal.setoid a

theorem datum_eq_iff {a b : Literal} : a.datum = b.datum ↔ a.same b = true :=
  ⟨fun h => Quotient.exact h, fun h => Quotient.sound h⟩

end Literal

namespace Term

theorem same_comm (t u : Term) : same t u = same u t := by
  cases t with
  | lit a =>
    cases u with
    | lit b => exact a.same_comm b
    | var y => rfl
  | var x =>
    cases u with
    | lit b => rfl
    | var y => exact BEq.comm

theorem same_symm {t u : Term} (h : same t u = true) : same u t = true := by
  rw [same_comm, h]

theorem same_of_eq {t u : Term} (h : t = u) : same t u = true := by
  rw [h, same_refl]

theorem same_trans {t u v : Term} (h : same t u = true) (h' : same u v = true) :
    same t v = true := by
  cases t with
  | lit a =>
    cases u with
    | var y => cases h
    | lit b =>
      cases v with
      | var z => cases h'
      | lit c => exact Literal.same_trans (a := a) h h'
  | var x =>
    cases u with
    | lit b => cases h
    | var y =>
      simp only [same, beq_iff_eq] at h
      rw [h]
      exact h'

theorem eq_of_same_var {t : Term} {x : Var} (h : same t (.var x) = true) : t = .var x := by
  cases t with
  | lit a => cases h
  | var y =>
    simp only [same, beq_iff_eq] at h
    rw [h]

theorem exists_lit_of_same {t : Term} {a : Literal} (h : same t (.lit a) = true) :
    ∃ b, t = .lit b ∧ b.same a = true := by
  cases t with
  | lit b => exact ⟨b, rfl, h⟩
  | var y => cases h

end Term

namespace Kind

theorem ofJson_of_same {x y : Json} (h : x.same y = true) : ofJson x = ofJson y := by
  cases x with
  | number m =>
    cases y with
    | number n =>
      cases m <;> cases n <;> first | rfl | cases h
    | _ => cases h
  | _ => cases y <;> first | rfl | cases h

/-- A kind admits a literal exactly when it admits an equal one. -/
theorem admits_of_same {a b : Literal} (h : a.same b = true) (k : Kind) :
    k.admits a = k.admits b := by
  have hk : of a = of b := ofJson_of_same h
  cases k <;> simp only [admits, hk]

/-- Every literal that fits the second kind fits the first one. -/
def Covers (k l : Kind) : Prop := ∀ a, l.admits a = true → k.admits a = true

theorem covers_refl (k : Kind) : k.Covers k := fun _ h => h

theorem covers_trans {k l m : Kind} (h : k.Covers l) (h' : l.Covers m) : k.Covers m :=
  fun a ha => h a (h' a ha)

theorem covers_of_meet? {k l m : Kind} (h : meet? k l = some m) : k.Covers m ∧ l.Covers m := by
  constructor
  · intro a ha
    rw [admits_meet? h a, Bool.and_eq_true] at ha
    exact ha.1
  · intro a ha
    rw [admits_meet? h a, Bool.and_eq_true] at ha
    exact ha.2

end Kind

end Goalbase

import Goalbase.Kind
import Goalbase.Proofs.Rounding
import Mathlib.Tactic.ByContra

/-!
# Goalbase.Proofs.Ordering

How far the order of literals is an order.

Nulls, truth values and texts are ordered, and so are numbers, except that an order through doubles
cannot tell apart two integers that are rounded to the same double: a double between them equals
both, and they do not equal each other (`Number.Blurs`). There are no other failures
(`Number.le_trans`, `Number.eq_trans`, and for literals of one kind `Kind.alike` with
`Json.Alike.atMost_trans` and `Json.Alike.eq_trans`).
-/

namespace Goalbase

/-! ## Numbers -/

namespace Number

variable {a b c : Number}

/-- The first and the last number are different integers, and both are rounded to the double between
them. -/
structure Blurs (a b c : Number) : Prop where
  first : a.isInteger = true
  middle : b.isInteger = false
  last : c.isInteger = true
  ne : a ≠ c
  rounded : a.units = b.units ∧ c.units = b.units

theorem Blurs.symm (h : a.Blurs b c) : c.Blurs b a :=
  ⟨h.last, h.middle, h.first, fun he => h.ne he.symm, h.rounded.symm⟩

theorem exists_int (h : a.isInteger = true) : ∃ z hz hz', a = int z hz hz' := by
  cases a with
  | int z hz hz' => exact ⟨z, hz, hz', rfl⟩
  | double x => cases h

theorem compare_swap (a b : Number) : (a.compare b).swap = b.compare a := by
  by_cases h : a.isInteger = false ∨ b.isInteger = false
  · rw [compare_rounded h, compare_rounded h.symm, Int.compare_swap]
  · simp only [not_or, Bool.not_eq_false] at h
    obtain ⟨z, hz, hz', rfl⟩ := exists_int h.1
    obtain ⟨w, hw, hw', rfl⟩ := exists_int h.2
    rw [compare_int, compare_int, Int.compare_swap]

theorem compare_self (a : Number) : a.compare a = .eq := by
  cases a with
  | int z hz hz' => exact compare_int.trans (Int.compare_eq_eq.2 rfl)
  | double x => exact (compare_rounded (.inl rfl)).trans (Int.compare_eq_eq.2 rfl)

/-- What is less after rounding is less. -/
theorem compare_eq_lt (h : a.units < b.units) : a.compare b = .lt := by
  cases a with
  | double x => exact (compare_rounded (.inl rfl)).trans (Int.compare_eq_lt.2 h)
  | int z hz hz' =>
    cases b with
    | double y => exact (compare_rounded (.inr rfl)).trans (Int.compare_eq_lt.2 h)
    | int w hw hw' =>
      rw [compare_int, Int.compare_eq_lt]
      by_contra hle
      exact absurd (units_mono (Int.not_lt.1 hle)) (Int.not_le.2 h)

/-- Rounding keeps what is not greater. -/
theorem units_le (h : (a.compare b).isLE = true) : a.units ≤ b.units := by
  by_contra hlt
  rw [← compare_swap, compare_eq_lt (Int.not_le.1 hlt)] at h
  cases h

/-- With a double in it a pair is equal where the rounded numbers are. -/
theorem compare_eq_eq (h : a.isInteger = false ∨ b.isInteger = false) (he : a.units = b.units) :
    a.compare b = .eq := (compare_rounded h).trans (Int.compare_eq_eq.2 he)

theorem Blurs.compare_eq (h : a.Blurs b c) :
    a.compare b = .eq ∧ b.compare c = .eq ∧ a.compare c ≠ .eq := by
  obtain ⟨ha, hb, hc, hne, hab, hcb⟩ := h
  refine ⟨compare_eq_eq (.inr hb) hab, compare_eq_eq (.inl hb) hcb.symm, fun he => hne ?_⟩
  obtain ⟨z, hz, hz', rfl⟩ := exists_int ha
  obtain ⟨w, hw, hw', rfl⟩ := exists_int hc
  rw [compare_int, Int.compare_eq_eq] at he
  cases he
  rfl

/-- What is not greater than the one between them, which is not greater than the other, is not
greater than that, unless the one between blurs the two. -/
theorem le_trans (h : (a.compare b).isLE = true) (h' : (b.compare c).isLE = true)
    (hblurs : ¬a.Blurs b c) : (a.compare c).isLE = true := by
  have hab := units_le h
  have hbc := units_le h'
  rcases Int.lt_or_eq_of_le (Int.le_trans hab hbc) with hlt | heq
  · rw [compare_eq_lt hlt]
    rfl
  -- all three are rounded to the same double
  by_cases hdouble : a.isInteger = false ∨ c.isInteger = false
  · rw [compare_eq_eq hdouble heq]
    rfl
  simp only [not_or, Bool.not_eq_false] at hdouble
  cases hb : b.isInteger with
  | false =>
    have hac : a = c := by
      by_contra hne
      exact hblurs ⟨hdouble.1, hb, hdouble.2, hne, by omega, by omega⟩
    rw [hac, compare_self]
    rfl
  | true =>
    obtain ⟨z, hz, hz', rfl⟩ := exists_int hdouble.1
    obtain ⟨v, hv, hv', rfl⟩ := exists_int hb
    obtain ⟨w, hw, hw', rfl⟩ := exists_int hdouble.2
    simp only [compare_int, Int.isLE_compare] at h h' ⊢
    exact Int.le_trans h h'

/-- Equality is transitive, unless the one between blurs the two. -/
theorem eq_trans (h : a.compare b = .eq) (h' : b.compare c = .eq) (hblurs : ¬a.Blurs b c) :
    a.compare c = .eq := by
  have hle : (a.compare c).isLE = true := le_trans (by rw [h]; rfl) (by rw [h']; rfl) hblurs
  have hge : (c.compare a).isLE = true := by
    refine le_trans (b := b) ?_ ?_ fun hr => hblurs hr.symm
    · rw [← compare_swap, h']
      rfl
    · rw [← compare_swap, h]
      rfl
  rw [← compare_swap] at hge
  cases ho : a.compare c with
  | lt => rw [ho] at hge; cases hge
  | eq => rfl
  | gt => rw [ho] at hle; cases hle

end Number

/-! ## Literals of one sort -/

namespace Json

variable {x y z : Json}

/-- Three values of one sort, of those that have an order. -/
inductive Alike : Json → Json → Json → Prop where
  | nulls : Alike .null .null .null
  | bools (a b c : Bool) : Alike (.bool a) (.bool b) (.bool c)
  | numbers (l m n : Number) : Alike (.number l) (.number m) (.number n)
  | strings (r s t : String) : Alike (.string r) (.string s) (.string t)

/-- The first value is less than the second one or equal to it. -/
def AtMost (x y : Json) : Prop := ∃ o, x.compare? y = some o ∧ o.isLE = true

/-- Numbers of which the one in the middle is a double that both others, different integers, are
rounded to. -/
inductive Blurs : Json → Json → Json → Prop where
  | numbers {l m n : Number} (h : l.Blurs m n) : Blurs (.number l) (.number m) (.number n)

theorem compare?_swap (x y : Json) : y.compare? x = (x.compare? y).map Ordering.swap := by
  cases x <;> cases y <;> try rfl
  case bool.bool a b => exact congrArg some Std.OrientedCmp.eq_swap
  case number.number m n => exact congrArg some (m.compare_swap n).symm
  case string.string s t => exact congrArg some Std.OrientedCmp.eq_swap

theorem Alike.exists_compare? (h : Alike x y z) : ∃ o, x.compare? y = some o := by
  cases h <;> exact ⟨_, rfl⟩

theorem Alike.atMost_trans (h : Alike x y z) (hxy : x.AtMost y) (hyz : y.AtMost z)
    (hblurs : ¬Blurs x y z) : x.AtMost z := by
  obtain ⟨o, ho, hle⟩ := hxy
  obtain ⟨o', ho', hle'⟩ := hyz
  cases h with
  | nulls => exact ⟨.eq, rfl, rfl⟩
  | bools a b c =>
    cases ho
    cases ho'
    exact ⟨_, rfl, Std.TransCmp.isLE_trans hle hle'⟩
  | numbers l m n =>
    cases ho
    cases ho'
    exact ⟨_, rfl, Number.le_trans hle hle' fun hb => hblurs (.numbers hb)⟩
  | strings r s t =>
    cases ho
    cases ho'
    exact ⟨_, rfl, Std.TransCmp.isLE_trans hle hle'⟩

theorem Alike.eq_trans (h : Alike x y z) (hxy : x.compare? y = some .eq)
    (hyz : y.compare? z = some .eq) (hblurs : ¬Blurs x y z) : x.compare? z = some .eq := by
  cases h with
  | nulls => rfl
  | bools a b c =>
    exact congrArg some (Std.TransCmp.eq_trans (Option.some.inj hxy) (Option.some.inj hyz))
  | numbers l m n =>
    exact congrArg some (Number.eq_trans (Option.some.inj hxy) (Option.some.inj hyz)
      fun hb => hblurs (.numbers hb))
  | strings r s t =>
    exact congrArg some (Std.TransCmp.eq_trans (Option.some.inj hxy) (Option.some.inj hyz))

/-- Blurred integers equal what is between them, and they are ordered as the integers they are. -/
theorem Blurs.compare?_eq (h : Blurs x y z) : x.compare? y = some .eq ∧ y.compare? z = some .eq
    ∧ ∃ i hi hi' j hj hj', i ≠ j ∧ x = .number (.int i hi hi') ∧ z = .number (.int j hj hj')
      ∧ x.compare? z = some (Ord.compare i j) := by
  cases h with
  | numbers h =>
    obtain ⟨hxy, hyz, -⟩ := h.compare_eq
    obtain ⟨i, hi, hi', rfl⟩ := Number.exists_int h.first
    obtain ⟨j, hj, hj', rfl⟩ := Number.exists_int h.last
    refine ⟨congrArg some hxy, congrArg some hyz, i, hi, hi', j, hj, hj', fun he => h.ne ?_, rfl,
      rfl, congrArg some Number.compare_int⟩
    cases he
    rfl

end Json

/-- The kinds of literals that have an order among themselves. -/
def Kind.orders : List Kind := [.null, .bool, .number, .text]

theorem Kind.json_of_admits {k : Kind} (hk : k ∈ orders) {a : Literal} (h : k.admits a = true) :
    (k = .null ∧ a.json = .null) ∨ (k = .bool ∧ ∃ v, a.json = .bool v)
      ∨ (k = .number ∧ ∃ n, a.json = .number n) ∨ (k = .text ∧ ∃ t, a.json = .string t) := by
  cases hj : a.json <;> cases k <;> simp_all [orders, admits, of, ofJson, isNumeric] <;> grind

/-- Literals of a kind that has an order are of one sort. -/
theorem Kind.alike {k : Kind} (hk : k ∈ orders) {a b c : Literal} (ha : k.admits a = true)
    (hb : k.admits b = true) (hc : k.admits c = true) : Json.Alike a.json b.json c.json := by
  have hb := json_of_admits hk hb
  have hc := json_of_admits hk hc
  rcases json_of_admits hk ha with ⟨rfl, h⟩ | ⟨rfl, v, h⟩ | ⟨rfl, n, h⟩ | ⟨rfl, t, h⟩
  · simp only [reduceCtorEq, false_and, or_false, true_and] at hb hc
    rw [h, hb, hc]
    exact .nulls
  · simp only [reduceCtorEq, false_and, or_false, false_or, true_and] at hb hc
    obtain ⟨⟨w, hb⟩, u, hc⟩ := And.intro hb hc
    rw [h, hb, hc]
    exact .bools v w u
  · simp only [reduceCtorEq, false_and, or_false, false_or, true_and] at hb hc
    obtain ⟨⟨m, hb⟩, l, hc⟩ := And.intro hb hc
    rw [h, hb, hc]
    exact .numbers n m l
  · simp only [reduceCtorEq, false_and, false_or, true_and] at hb hc
    obtain ⟨⟨r, hb⟩, s, hc⟩ := And.intro hb hc
    rw [h, hb, hc]
    exact .strings t r s

end Goalbase

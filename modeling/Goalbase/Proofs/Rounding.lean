import Goalbase.Order

/-!
# Goalbase.Proofs.Rounding

Rounding keeps the order, and integers are compared exactly.

A quotient is rounded monotonically (`Binary64.divRound_mono`). Two numbers on one grid are
therefore rounded in order, and of two numbers on different grids the smaller one is rounded to at
most the power of two that the greater one is rounded to at least (`onGrid_le`, `le_onGrid`); so
rounding whole numbers is monotone (`nearestUnits_mono`). On integers `Number.compare` is the order
of the integers, whichever of its three ways decides (`Number.compare_int`), and on any other pair
it is the order of the rounded numbers (`Number.compare_rounded`).
-/

namespace Goalbase

namespace Binary64

variable {a b d n m s : Nat}

theorem divRound_bounds (a b : Nat) : a / b ≤ divRound a b ∧ divRound a b ≤ a / b + 1 := by
  simp only [divRound]
  grind

theorem divRound_mono (h : a ≤ b) : divRound a d ≤ divRound b d := by
  have hq : a / d ≤ b / d := Nat.div_le_div_right h
  by_cases he : a / d = b / d
  · -- of the same quotient, so the remainders decide
    have hr : a % d ≤ b % d := by
      have ha := Nat.div_add_mod a d
      have hb := Nat.div_add_mod b d
      rw [he] at ha
      omega
    simp only [divRound, he]
    grind
  · have hupper := (divRound_bounds a d).2
    have hlower := (divRound_bounds b d).1
    omega

/-- A number of units rounded to a multiple of `2^s`. -/
def onGrid (s n : Nat) : Nat := divRound n (1 <<< s) <<< s

theorem onGrid_eq (s n : Nat) : onGrid s n = divRound n (1 <<< s) * 1 <<< s := by
  rw [onGrid, Nat.shiftLeft_eq _ s, Nat.shiftLeft_eq 1 s, Nat.one_mul]

theorem one_shiftLeft_add (k s : Nat) : 1 <<< (k + s) = 1 <<< k * 1 <<< s := by
  simp only [Nat.shiftLeft_eq, Nat.one_mul, Nat.pow_add]

theorem one_shiftLeft_pos (s : Nat) : 0 < 1 <<< s := by
  rw [Nat.shiftLeft_eq, Nat.one_mul]
  exact Nat.two_pow_pos s

theorem one_shiftLeft_mono (h : s ≤ n) : 1 <<< s ≤ 1 <<< n := by
  simp only [Nat.shiftLeft_eq, Nat.one_mul]
  exact Nat.pow_le_pow_right (Nat.succ_pos 1) h

theorem onGrid_mono (h : n ≤ m) : onGrid s n ≤ onGrid s m := by
  rw [onGrid_eq, onGrid_eq]
  exact Nat.mul_le_mul_right _ (divRound_mono h)

/-- A number below `2^(k+s)` is rounded to that at most. -/
theorem onGrid_le {k : Nat} (h : n < 1 <<< (k + s)) : onGrid s n ≤ 1 <<< (k + s) := by
  rw [one_shiftLeft_add] at h ⊢
  have hq : n / 1 <<< s < 1 <<< k := (Nat.div_lt_iff_lt_mul (one_shiftLeft_pos s)).2 h
  have hround := (divRound_bounds n (1 <<< s)).2
  rw [onGrid_eq]
  exact Nat.mul_le_mul_right _ (by omega)

/-- A number from `2^(k+s)` on is rounded to that at least. -/
theorem le_onGrid {k : Nat} (h : 1 <<< (k + s) ≤ n) : 1 <<< (k + s) ≤ onGrid s n := by
  rw [one_shiftLeft_add] at h ⊢
  have hq : 1 <<< k ≤ n / 1 <<< s := (Nat.le_div_iff_mul_le (one_shiftLeft_pos s)).2 h
  rw [onGrid_eq]
  exact Nat.mul_le_mul_right _ (Nat.le_trans hq (divRound_bounds n (1 <<< s)).1)

/-! ## The grid of a number -/

/-- The grid on which a number of units keeps 53 bits. -/
def gridOf (n : Nat) : Nat := n.log2 + 1 - 53

theorem nearestUnits_eq (n : Nat) :
    nearestUnits n 1 = onGrid (gridOf (n <<< 1074)) (n <<< 1074) := by
  simp only [nearestUnits, significandOf, scaleOf, Nat.div_one]
  rfl

theorem lt_gridOf (n : Nat) : n < 1 <<< (53 + gridOf n) := by
  have hlog : n < 1 <<< (n.log2 + 1) := by
    rw [Nat.shiftLeft_eq, Nat.one_mul]
    exact Nat.lt_log2_self
  refine Nat.lt_of_lt_of_le hlog (one_shiftLeft_mono ?_)
  simp only [gridOf]
  omega

theorem le_gridOf (h : 0 < gridOf n) : 1 <<< (52 + gridOf n) ≤ n := by
  have hn : n ≠ 0 := by
    rintro rfl
    exact absurd h (by decide)
  have hlog : 1 <<< n.log2 ≤ n := by
    rw [Nat.shiftLeft_eq, Nat.one_mul]
    exact Nat.log2_self_le hn
  refine Nat.le_trans (one_shiftLeft_mono ?_) hlog
  simp only [gridOf] at h ⊢
  omega

theorem gridOf_mono (h : n ≤ m) : gridOf n ≤ gridOf m := by
  by_cases hn : n = 0
  · rw [hn]
    exact Nat.zero_le _
  · have hlog : n.log2 ≤ m.log2 :=
      (Nat.le_log2 (by omega)).2 (Nat.le_trans (Nat.log2_self_le hn) h)
    simp only [gridOf]
    omega

/-- Rounding to 53 bits is monotone. -/
theorem onGrid_gridOf_mono (h : n ≤ m) : onGrid (gridOf n) n ≤ onGrid (gridOf m) m := by
  rcases Nat.eq_or_lt_of_le (gridOf_mono h) with he | hlt
  · rw [he]
    exact onGrid_mono h
  · calc
      onGrid (gridOf n) n ≤ 1 <<< (53 + gridOf n) := onGrid_le (lt_gridOf n)
      _ ≤ 1 <<< (52 + gridOf m) := one_shiftLeft_mono (by omega)
      _ ≤ onGrid (gridOf m) m := le_onGrid (le_gridOf (by omega))

theorem shiftLeft_mono (h : n ≤ m) (s : Nat) : n <<< s ≤ m <<< s := by
  rw [Nat.shiftLeft_eq, Nat.shiftLeft_eq]
  exact Nat.mul_le_mul_right _ h

theorem nearestUnits_mono (h : n ≤ m) : nearestUnits n 1 ≤ nearestUnits m 1 := by
  rw [nearestUnits_eq, nearestUnits_eq]
  exact onGrid_gridOf_mono (shiftLeft_mono h 1074)

theorem onGrid_gridOf_pos (h : 0 < n) : 0 < onGrid (gridOf n) n := by
  rcases Nat.eq_zero_or_pos (gridOf n) with hs | hs
  · -- no bit is dropped
    have hround := (divRound_bounds n (1 <<< 0)).1
    rw [Nat.shiftLeft_zero, Nat.div_one] at hround
    rw [hs, onGrid_eq, Nat.shiftLeft_zero, Nat.mul_one]
    exact Nat.lt_of_lt_of_le h hround
  · exact Nat.lt_of_lt_of_le (one_shiftLeft_pos _) (le_onGrid (le_gridOf hs))

theorem shiftLeft_pos (h : 0 < n) (s : Nat) : 0 < n <<< s := by
  rw [Nat.shiftLeft_eq]
  exact Nat.mul_pos h (Nat.two_pow_pos s)

theorem nearestUnits_pos (h : 0 < n) : 0 < nearestUnits n 1 := by
  rw [nearestUnits_eq]
  exact onGrid_gridOf_pos (shiftLeft_pos h 1074)

end Binary64

namespace Number

/-! ## The three ways to compare -/

section Ways

variable {a b : Number} {x y : Int}

theorem compare_signed (ha : a.signedWord? = some x) (hb : b.signedWord? = some y) :
    a.compare b = Ord.compare x y := by
  simp only [compare, ha, hb]

theorem compare_unsigned (h : a.signedWord? = none ∨ b.signedWord? = none)
    (ha : a.unsignedWord? = some x) (hb : b.unsignedWord? = some y) :
    a.compare b = Ord.compare x y := by
  rcases h with h | h
  · simp only [compare, h, ha, hb]
  · cases hs : a.signedWord? <;> simp only [compare, hs, h, ha, hb]

theorem compare_units (h : a.signedWord? = none ∨ b.signedWord? = none)
    (h' : a.unsignedWord? = none ∨ b.unsignedWord? = none) :
    a.compare b = Ord.compare a.units b.units := by
  cases hs : a.signedWord? <;> cases hs' : b.signedWord? <;> cases hu : a.unsignedWord? <;>
    cases hu' : b.unsignedWord? <;> simp_all [compare]

end Ways

/-! ## Comparing integers and doubles -/

variable {z w : Int} {hz : -9223372036854775808 ≤ z} {hz' : z < 18446744073709551616}
  {hw : -9223372036854775808 ≤ w} {hw' : w < 18446744073709551616} {a b : Number}

/-- Integers are rounded in order. -/
theorem units_mono (h : z ≤ w) : (int z hz hz').units ≤ (int w hw hw').units := by
  simp only [units]
  split
  · split
    · have hround : Binary64.nearestUnits w.natAbs 1 ≤ Binary64.nearestUnits z.natAbs 1 :=
        Binary64.nearestUnits_mono (by omega)
      omega
    · omega
  · rw [if_neg (by omega)]
    have hround : Binary64.nearestUnits z.natAbs 1 ≤ Binary64.nearestUnits w.natAbs 1 :=
      Binary64.nearestUnits_mono (by omega)
    omega

/-- Rounding keeps the sign of an integer. -/
theorem units_lt_of_sign (h : z < 0) (h' : 0 ≤ w) :
    (int z hz hz').units < (int w hw hw').units := by
  have hpos : 0 < Binary64.nearestUnits z.natAbs 1 := Binary64.nearestUnits_pos (by omega)
  simp only [units, if_pos h, if_neg (Int.not_lt.2 h')]
  omega

/-- Two integers are compared exactly. Where no word type holds both, they differ in sign. -/
theorem compare_int : (int z hz hz').compare (int w hw hw') = Ord.compare z w := by
  by_cases hsigned : z < 9223372036854775808 ∧ w < 9223372036854775808
  · exact compare_signed (if_pos hsigned.1) (if_pos hsigned.2)
  have hlarge : (int z hz hz').signedWord? = none ∨ (int w hw hw').signedWord? = none :=
    (Decidable.not_and_iff_not_or_not.1 hsigned).imp (fun h => if_neg h) fun h => if_neg h
  by_cases hunsigned : 0 ≤ z ∧ 0 ≤ w
  · exact compare_unsigned hlarge (if_pos hunsigned.1) (if_pos hunsigned.2)
  have hbelow : (int z hz hz').unsignedWord? = none ∨ (int w hw hw').unsignedWord? = none :=
    (Decidable.not_and_iff_not_or_not.1 hunsigned).imp (fun h => if_neg h) fun h => if_neg h
  rw [compare_units hlarge hbelow]
  by_cases hneg : z < 0
  · rw [Int.compare_eq_lt.2 (units_lt_of_sign hneg (by omega)), Int.compare_eq_lt.2 (by omega)]
  · rw [Int.compare_eq_gt.2 (units_lt_of_sign (by omega) (by omega)),
      Int.compare_eq_gt.2 (by omega)]

/-- A pair with a double in it is compared as doubles. -/
theorem compare_rounded (h : a.isInteger = false ∨ b.isInteger = false) :
    a.compare b = Ord.compare a.units b.units := by
  have hsigned : ∀ {n : Number}, n.isInteger = false → n.signedWord? = none := by
    intro n hn
    cases n with
    | int _ _ _ => cases hn
    | double _ => rfl
  have hunsigned : ∀ {n : Number}, n.isInteger = false → n.unsignedWord? = none := by
    intro n hn
    cases n with
    | int _ _ _ => cases hn
    | double _ => rfl
  exact compare_units (h.imp hsigned hsigned) (h.imp hunsigned hunsigned)

end Number

end Goalbase

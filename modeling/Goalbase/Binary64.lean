/-!
# Goalbase.Binary64

Finite double-precision numbers, held exactly.

Mathematical meaning: `⟨negative, significand, scale⟩` denotes
`± significand * 2^scale` *units*, where one unit is `2^-1074`, the least positive double. The
proof fields say that a number has one representation apart from the two signs of zero, so order
and equality are order and equality of the signed number of units, an integer.

Rounding is to the nearest grid point, and of two equally near ones to the even one.
-/

namespace Goalbase

/-- A finite double: `± significand * 2^scale` units of `2^-1074`. -/
structure Binary64 where
  negative : Bool
  significand : Nat
  scale : Nat
  /-- The significand has at most 53 bits. -/
  significand_lt : significand < 9007199254740992
  scale_le : scale ≤ 2045
  /-- It has all 53 bits unless the scale is the least one. -/
  normalized : scale = 0 ∨ 4503599627370496 ≤ significand
  deriving DecidableEq

namespace Binary64

/-- The magnitude as a number of units. -/
def units (x : Binary64) : Nat := x.significand <<< x.scale

/-- The signed number of units; both zeros denote 0. -/
def signed (x : Binary64) : Int := if x.negative then -(x.units : Int) else x.units

def isZero (x : Binary64) : Bool := x.significand == 0

/-- Equality of the numbers denoted: the two zeros are equal. -/
def same (x y : Binary64) : Bool := x.signed == y.signed

def neg (x : Binary64) : Binary64 := { x with negative := !x.negative }

/-- The quotient `a / b` to the nearest natural number, a half going to the even neighbour. -/
def divRound (a b : Nat) : Nat :=
  let q := a / b
  let r := a % b
  if 2 * r < b then q else if b < 2 * r then q + 1 else q + q % 2

/-- How many bits of the quotient `num / den`, counted in units, lie below the leading 53. -/
def scaleOf (num den : Nat) : Nat := ((num <<< 1074) / den).log2 + 1 - 53

/-- The significand of `num / den` on the grid of `scaleOf num den`; it can come out as `2^53`. -/
def significandOf (num den : Nat) : Nat := divRound (num <<< 1074) (den <<< scaleOf num den)

/-- The double nearest to `num / den`, as a number of units, without a bound on its size. -/
def nearestUnits (num den : Nat) : Nat := significandOf num den <<< scaleOf num den

/-- The double with the given parts, where `2^53` is carried to the next scale; `none` beyond the
largest finite double. -/
def ofParts? (negative : Bool) (significand scale : Nat) : Option Binary64 :=
  if h : significand < 9007199254740992 ∧ scale ≤ 2045
      ∧ (scale = 0 ∨ 4503599627370496 ≤ significand) then
    some ⟨negative, significand, scale, h.1, h.2.1, h.2.2⟩
  else if h : significand = 9007199254740992 ∧ scale + 1 ≤ 2045 then
    some ⟨negative, 4503599627370496, scale + 1, by decide, h.2, .inr (Nat.le_refl _)⟩
  else
    none

/-- The double nearest to `± num / den`, or `none` on overflow. -/
def nearest? (negative : Bool) (num den : Nat) : Option Binary64 :=
  ofParts? negative (significandOf num den) (scaleOf num den)

def mul? (x y : Binary64) : Option Binary64 :=
  nearest? (x.negative != y.negative) (x.units * y.units) (1 <<< 2148)

def div? (x y : Binary64) : Option Binary64 :=
  nearest? (x.negative != y.negative) x.units y.units

def tenPow? (n : Nat) : Option Binary64 := nearest? false (Nat.pow 10 n) 1

def zero (negative : Bool) : Binary64 := ⟨negative, 0, 0, by decide, by decide, .inl rfl⟩

/-- `x / 10^n` with one rounding for the divisor's power and one per quotient; a power above 308 is
taken out in steps of 308. -/
def divTenPow? : (steps : Nat) → Binary64 → (n : Nat) → Option Binary64
  | steps, x, n =>
    if n ≤ 308 then
      match tenPow? n with
      | none => none
      | some p => div? x p
    else if x.isZero then
      some x
    else
      match steps with
      | 0 => none
      | steps + 1 =>
        match tenPow? 308 with
        | none => none
        | some p =>
          match div? x p with
          | none => none
          | some y => divTenPow? steps y (n - 308)

/-- `x * 10^n`, rounded for the power and for the product, or `none` on overflow. -/
def mulTenPow? (x : Binary64) (n : Nat) : Option Binary64 :=
  if n ≤ 308 then
    match tenPow? n with
    | none => none
    | some p => mul? x p
  else if x.isZero then
    some x
  else
    none

/-- `x * 10^e` for an exponent of either sign. -/
def scaleTen? (x : Binary64) : Int → Option Binary64
  | .ofNat n => mulTenPow? x n
  | .negSucc n => divTenPow? (n / 308 + 1) x (n + 1)

theorem same_refl (x : Binary64) : same x x = true := by simp [same]

theorem same_comm (x y : Binary64) : same x y = same y x := by
  simp only [same]
  exact BEq.comm

theorem same_trans {x y z : Binary64} (h : same x y = true) (h' : same y z = true) :
    same x z = true := by
  simp only [same, beq_iff_eq] at *
  exact h.trans h'

end Binary64

end Goalbase

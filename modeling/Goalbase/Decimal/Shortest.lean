import Goalbase.Binary64

/-!
# Goalbase.Decimal.Shortest

The decimal text of a double: the fewest digits that read back as the same number.

Mathematical meaning: the reals that round to a double form an interval around it, ends included
exactly when its significand is even. `shortest` takes the coarsest power-of-ten grid with a point
in that interval, and of two such points the nearer one. All quantities are natural numbers in
quarters of a unit, so nothing is rounded on the way. How the digits are laid out is the business
of `Layout`.
-/

namespace Goalbase

/-- A decimal number: `digits * 10^exponent`. -/
structure Decimal where
  digits : Nat
  exponent : Int
  deriving DecidableEq

namespace Decimal

/-- The interval of numbers that round to a double, in quarters of a unit. -/
structure Interval where
  low : Nat
  high : Nat
  closed : Bool

/-- Half a grid step on both sides; below a power of two the grid is twice as fine. -/
def Interval.around (x : Binary64) : Interval where
  low :=
    4 * x.units - ((if x.significand = 4503599627370496 ∧ 0 < x.scale then 1 else 2) <<< x.scale)
  high := 4 * x.units + (2 <<< x.scale)
  closed := x.significand % 2 == 0

def Interval.holds (i : Interval) (num den : Nat) : Bool :=
  if i.closed then decide (i.low * den ≤ num) && decide (num ≤ i.high * den)
  else decide (i.low * den < num) && decide (num < i.high * den)

/-- `10^e` as a quotient of quarters of a unit. -/
def gridStep : Int → Nat × Nat
  | .ofNat n => ((Nat.pow 10 n) <<< 1076, 1)
  | .negSucc n => (1 <<< 1076, Nat.pow 10 (n + 1))

/-- The multiple of `10^e` in the interval that is nearest to its middle `value`, if any: one of the
two neighbours of `value` on that grid, the even one of two equally near. -/
def onGrid? (i : Interval) (value : Nat) (e : Int) : Option Nat :=
  let (step, den) := gridStep e
  let below := value * den / step
  let above := below + 1
  let toBelow := value * den - below * step
  let toAbove := above * step - value * den
  match i.holds (below * step) den, i.holds (above * step) den with
  | false, false => none
  | true, false => some below
  | false, true => some above
  | true, true =>
    if toBelow < toAbove then some below
    else if toAbove < toBelow then some above
    else some (below + below % 2)

/-- The first grid with a hit, from `10^e` downwards through `10^(e - tries + 1)`. -/
def firstHit (i : Interval) (value : Nat) : (tries : Nat) → Int → Decimal
  | 0, e => ⟨0, e⟩
  | tries + 1, e =>
    match onGrid? i value e with
    | some digits => ⟨digits, e⟩
    | none => firstHit i value tries (e - 1)

/-- An exponent whose grid is too coarse by at most two places, from the position of the leading
bit; 30103 / 100000 is the logarithm of two to base ten. -/
def startExponent (value : Nat) : Int := ((value.log2 : Int) - 1076) * 30103 / 100000 + 1

/-- The shortest decimal that reads back as the magnitude of `x`. -/
def shortest (x : Binary64) : Decimal :=
  if x.isZero then ⟨0, 0⟩
  else firstHit (.around x) (4 * x.units) 20 (startExponent (4 * x.units))

/-- Where positional notation ends: a decimal whose leading digit stands for `10^p` is written
positionally for `leastPositional ≤ p < leastScientific` and with an exponent otherwise. -/
structure Layout where
  leastPositional : Int
  leastScientific : Int

/-- Digits around a point, with at least one digit on each side of it. -/
def positional (digits : List Char) : Int → List Char
  | .ofNat zeros => digits ++ List.replicate zeros '0' ++ ['.', '0']
  | .negSucc n =>
    let places := n + 1
    let padded := List.replicate (places + 1 - digits.length) '0' ++ digits
    padded.take (padded.length - places) ++ '.' :: padded.drop (padded.length - places)

/-- One digit before the point, no point after a single digit, and a signed exponent. -/
def scientific (digits : List Char) (power : Int) : List Char :=
  let mantissa := match digits with
    | [] => []
    | [d] => [d]
    | d :: rest => d :: '.' :: rest
  let sign := if power < 0 then '-' else '+'
  mantissa ++ 'e' :: sign :: Nat.toDigits 10 power.natAbs

def write (layout : Layout) (d : Decimal) : List Char :=
  let digits := Nat.toDigits 10 d.digits
  let power := d.exponent + digits.length - 1
  if layout.leastPositional ≤ power ∧ power < layout.leastScientific then
    positional digits d.exponent
  else
    scientific digits power

end Decimal

end Goalbase

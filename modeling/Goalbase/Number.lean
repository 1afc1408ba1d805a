import Goalbase.Decimal.Shortest

/-!
# Goalbase.Number

The numbers of a literal: integers in `[-2^63, 2^64)`, kept exactly, and finite doubles.

Mathematical meaning: an integer and a double are never the same number, whatever their values;
`1` and `1.0` differ as literals. Order is another matter: two integers that fit a common word type
are ordered exactly, and every other pair as doubles.

A numeral is read by `Numeral.value?`: one without point and exponent that is in range is the
integer it spells, except that `-0` is a double, and every other one is the double that
`Numeral.double?` assigns to it.
-/

namespace Goalbase

/-- A number: an integer in `[-2^63, 2^64)` or a finite double. -/
inductive Number where
  | int (value : Int) (least : -9223372036854775808 ≤ value)
    (below : value < 18446744073709551616)
  | double (value : Binary64)
  deriving DecidableEq

namespace Number

def ofInt? (z : Int) : Option Number :=
  if h : -9223372036854775808 ≤ z ∧ z < 18446744073709551616 then some (.int z h.1 h.2) else none

def ofWord (w : Int64) : Number :=
  .int w.toInt (by have := w.le_toInt; omega) (by have := w.toInt_lt; omega)

def signedWord? : Number → Option Int
  | .int z _ _ => if z < 9223372036854775808 then some z else none
  | .double _ => none

def unsignedWord? : Number → Option Int
  | .int z _ _ => if 0 ≤ z then some z else none
  | .double _ => none

def isInteger : Number → Bool
  | .int _ _ _ => true
  | .double _ => false

/-- The number rounded to a double, as a signed number of units. -/
def units : Number → Int
  | .int z _ _ => if z < 0 then -(Binary64.nearestUnits z.natAbs 1 : Int)
    else Binary64.nearestUnits z.natAbs 1
  | .double x => x.signed

/-- Equality of literals: an integer equals no double, and the two zeros are one number. -/
def same : Number → Number → Bool
  | .int a _ _, .int b _ _ => a == b
  | .double x, .double y => x.same y
  | _, _ => false

/-- Exact on two signed words and on two unsigned words, through doubles on any other pair. -/
def compare (a b : Number) : Ordering :=
  match a.signedWord?, b.signedWord? with
  | some x, some y => Ord.compare x y
  | _, _ =>
    match a.unsignedWord?, b.unsignedWord? with
    | some x, some y => Ord.compare x y
    | _, _ => Ord.compare a.units b.units

/-- Doubles are written positionally from `0.00001` up to sixteen digits before the point. -/
def layout : Decimal.Layout := ⟨-5, 16⟩

def text : Number → List Char
  | .int z _ _ => if z < 0 then '-' :: Nat.toDigits 10 z.natAbs else Nat.toDigits 10 z.natAbs
  | .double x =>
    if x.negative then '-' :: Decimal.write layout (Decimal.shortest x)
    else Decimal.write layout (Decimal.shortest x)

theorem same_refl (a : Number) : same a a = true := by
  cases a with
  | int z _ _ => simp [same]
  | double x => exact x.same_refl

theorem same_comm (a b : Number) : same a b = same b a := by
  cases a with
  | int z _ _ =>
    cases b with
    | int w _ _ => exact BEq.comm
    | double y => rfl
  | double x =>
    cases b with
    | int w _ _ => rfl
    | double y => exact x.same_comm y

theorem same_trans {a b c : Number} (h : same a b = true) (h' : same b c = true) :
    same a c = true := by
  cases b with
  | int w _ _ =>
    cases a with
    | int z _ _ =>
      cases c with
      | int u _ _ =>
        simp only [same, beq_iff_eq] at *
        exact h.trans h'
      | double y => cases h'
    | double x => cases h
  | double y =>
    cases a with
    | int z _ _ => cases h
    | double x =>
      cases c with
      | int u _ _ => cases h'
      | double z => exact Binary64.same_trans h h'

end Number

/-- A numeral as it is spelled: digits before and after the point and an exponent. A numeral is
`pointed` when a fraction is written. -/
structure Numeral where
  negative : Bool
  whole : List Nat
  fraction : List Nat
  pointed : Bool
  exponent : Option (Bool × List Nat)
  deriving DecidableEq

namespace Numeral

def ofDigits (digits : List Nat) : Nat := digits.foldl (fun n d => n * 10 + d) 0

/-- Appends digits to `n` as long as the result stays below `2^64`; gives the digits left over. -/
def absorb (n : Nat) : List Nat → Nat × List Nat
  | [] => (n, [])
  | d :: ds => if n * 10 + d < 18446744073709551616 then absorb (n * 10 + d) ds else (n, d :: ds)

def power (t : Numeral) : Int :=
  match t.exponent with
  | none => 0
  | some (true, digits) => -(ofDigits digits : Int)
  | some (false, digits) => ofDigits digits

/-- The significand, cut off where it no longer fits 64 bits, and its power of ten: a digit left
over before the point raises the power, one absorbed behind it lowers the power, and one left over
behind it is dropped. -/
def parts (t : Numeral) : Nat × Int :=
  let (whole, overflow) := absorb 0 t.whole
  let (significand, dropped) := absorb whole t.fraction
  (significand, overflow.length - (t.fraction.length - dropped.length : Nat) + t.power)

/-- The double a numeral stands for: its significand rounded to a double and then scaled, or `none`
on overflow. -/
def double? (t : Numeral) : Option Binary64 :=
  let (significand, power) := t.parts
  match Binary64.nearest? false significand 1 with
  | none => none
  | some x =>
    match x.scaleTen? power with
    | none => none
    | some y => some (if t.negative then y.neg else y)

/-- The integer a numeral spells, if it is written as one. -/
def integer? (t : Numeral) : Option Int :=
  if t.pointed || t.exponent.isSome then none
  else if t.negative then some (-(ofDigits t.whole : Int))
  else some (ofDigits t.whole)

/-- The number a numeral denotes, or `none` when it is too large for a double. -/
def value? (t : Numeral) : Option Number :=
  match t.integer? with
  | some z =>
    if t.negative && z == 0 then t.double?.map .double
    else
      match Number.ofInt? z with
      | some n => some n
      | none => t.double?.map .double
  | none => t.double?.map .double

end Numeral

end Goalbase

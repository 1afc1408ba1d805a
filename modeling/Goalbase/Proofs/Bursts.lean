import Goalbase.Checksum
import Mathlib.Logic.Function.Basic

/-!
# Goalbase.Proofs.Bursts

A change within four consecutive bytes changes the checksum.

One bit of division is linear in exclusive or (`shift_xor`) and loses nothing, since the polynomial
has its highest bit (`shift_injective`). So whatever follows keeps different registers apart
(`foldl_push_injective`), and up to four bytes act on a register as one `word` does
(`foldl_push_eq`), which tells them apart (`foldl_push_inj`). `crc32_burst` puts the three together.
-/

namespace Goalbase

namespace Checksum

/-! ## One bit of division -/

theorem getLsbD_shift (r : BitVec 32) (i : Nat) :
    (shift r).getLsbD i = ((r.getLsbD 0 && polynomial.getLsbD i) ^^ r.getLsbD (1 + i)) := by
  unfold shift
  cases r.getLsbD 0 with
  | false => simp
  | true => simp [Bool.xor_comm]

theorem shift_xor (a b : BitVec 32) : shift (a ^^^ b) = shift a ^^^ shift b := by
  apply BitVec.eq_of_getLsbD_eq
  intro i _
  simp only [getLsbD_shift, BitVec.getLsbD_xor]
  cases a.getLsbD 0 <;> cases b.getLsbD 0 <;> cases polynomial.getLsbD i <;>
    cases a.getLsbD (1 + i) <;> cases b.getLsbD (1 + i) <;> rfl

/-- The highest bit shows whether the polynomial was subtracted. -/
theorem getLsbD_shift_top (r : BitVec 32) : (shift r).getLsbD 31 = r.getLsbD 0 := by
  have htop : polynomial.getLsbD 31 = true := rfl
  rw [getLsbD_shift, htop, BitVec.getLsbD_of_ge r (1 + 31) (Nat.le_refl 32), Bool.and_true,
    Bool.xor_false]

theorem shift_injective : Function.Injective shift := by
  intro a b h
  have hlow : a.getLsbD 0 = b.getLsbD 0 := by
    rw [← getLsbD_shift_top, h, getLsbD_shift_top]
  apply BitVec.eq_of_getLsbD_eq
  intro i _
  cases i with
  | zero => exact hlow
  | succ i =>
    have hbit := congrArg (fun r => r.getLsbD i) h
    simp only [getLsbD_shift, hlow] at hbit
    rw [Nat.add_comm i 1]
    exact Bool.xor_right_inj.1 hbit

/-- A zero that comes out only moves the other bits down. -/
theorem shift_shiftLeft {r : BitVec 32} (h : r.getLsbD 31 = false) : shift (r <<< 1) = r := by
  apply BitVec.eq_of_getLsbD_eq
  intro i hi
  simp only [getLsbD_shift, BitVec.getLsbD_shiftLeft]
  by_cases hlast : i = 31
  · rw [hlast, h]
    rfl
  · have hlt : 1 + i < 32 := by omega
    simp [hlt]

/-! ## Several bits -/

theorem shifts_xor (n : Nat) (a b : BitVec 32) :
    shifts n (a ^^^ b) = shifts n a ^^^ shifts n b := by
  induction n generalizing a b with
  | zero => rfl
  | succ n ih => rw [shifts, shifts, shifts, shift_xor, ih]

theorem shifts_injective (n : Nat) : Function.Injective (shifts n) := by
  induction n with
  | zero => exact Function.injective_id
  | succ n ih => exact fun a b h => shift_injective (ih h)

theorem shifts_add (n m : Nat) (r : BitVec 32) : shifts (n + m) r = shifts m (shifts n r) := by
  induction n generalizing r with
  | zero => rw [Nat.zero_add, shifts]
  | succ n ih => rw [Nat.add_right_comm, shifts, shifts, ih]

theorem shifts_shiftLeft {n : Nat} {r : BitVec 32} (h : ∀ i, 32 - n ≤ i → r.getLsbD i = false) :
    shifts n (r <<< n) = r := by
  induction n with
  | zero => simp [shifts]
  | succ n ih =>
    have htop : (r <<< n).getLsbD 31 = false := by
      rw [BitVec.getLsbD_shiftLeft, h (31 - n) (by omega), Bool.and_false]
    rw [shifts, BitVec.shiftLeft_add, shift_shiftLeft htop]
    exact ih fun i hi => h i (by omega)

theorem push_injective (b : UInt8) : Function.Injective fun r => push r b := by
  intro r s h
  exact (BitVec.xor_left_inj _).1 (shifts_injective 8 h)

/-- Whatever follows keeps different registers apart. -/
theorem foldl_push_injective (bytes : Bytes) : Function.Injective fun r => bytes.foldl push r := by
  induction bytes with
  | nil => exact Function.injective_id
  | cons b rest ih => exact fun r s h => push_injective b (ih h)

/-! ## Four bytes at once -/

/-- The bytes in one register, the first of them lowest. -/
def word : Bytes → BitVec 32
  | [] => 0
  | b :: rest => b.toBitVec.setWidth 32 ^^^ (word rest <<< 8)

theorem getLsbD_word_high {bytes : Bytes} {i : Nat} (h : 8 * bytes.length ≤ i) :
    (word bytes).getLsbD i = false := by
  induction bytes generalizing i with
  | nil => simp [word]
  | cons b rest ih =>
    rw [List.length_cons] at h
    rw [word, BitVec.getLsbD_xor, BitVec.getLsbD_shiftLeft, ih (by omega),
      BitVec.getLsbD_setWidth, BitVec.getLsbD_of_ge _ i (by omega)]
    simp

theorem word_inj {v w : Bytes} (hlength : v.length = w.length) (hv : v.length ≤ 4)
    (h : word v = word w) : v = w := by
  induction v generalizing w with
  | nil => exact (List.length_eq_zero_iff.1 hlength.symm).symm
  | cons b v ih =>
    cases w with
    | nil => cases hlength
    | cons c w =>
      rw [List.length_cons] at hv
      have hlengths : v.length = w.length := Nat.succ.inj hlength
      have hbits : ∀ i, (word (b :: v)).getLsbD i = (word (c :: w)).getLsbD i := fun i => by rw [h]
      simp only [word, BitVec.getLsbD_xor, BitVec.getLsbD_shiftLeft,
        BitVec.getLsbD_setWidth] at hbits
      have hfirst : b = c := by
        apply UInt8.toBitVec_inj.1
        apply BitVec.eq_of_getLsbD_eq
        intro i hi
        have hi32 : i < 32 := by omega
        simpa [hi, hi32] using hbits i
      have hrest : word v = word w := by
        apply BitVec.eq_of_getLsbD_eq
        intro i hi
        by_cases hroom : 8 + i < 32
        · have hhigh : ¬8 + i < 8 := by omega
          simpa [hroom, hhigh, hfirst] using hbits (8 + i)
        · rw [getLsbD_word_high (by omega), getLsbD_word_high (by omega)]
      rw [hfirst, ih hlengths (by omega) hrest]

theorem foldl_push_eq {bytes : Bytes} (h : bytes.length ≤ 4) (r : BitVec 32) :
    bytes.foldl push r = shifts (8 * bytes.length) (r ^^^ word bytes) := by
  induction bytes generalizing r with
  | nil => simp [shifts, word]
  | cons b rest ih =>
    rw [List.length_cons] at h
    have hroom : shifts 8 (word rest <<< 8) = word rest :=
      shifts_shiftLeft fun i hi => getLsbD_word_high (by omega)
    calc (b :: rest).foldl push r
        = shifts (8 * rest.length) (push r b ^^^ word rest) := ih (by omega) (push r b)
      _ = shifts (8 * rest.length) (shifts 8 (r ^^^ word (b :: rest))) := by
          rw [word, ← BitVec.xor_assoc, shifts_xor 8 _ (word rest <<< 8), hroom, push]
      _ = shifts (8 * (rest.length + 1)) (r ^^^ word (b :: rest)) := by
          rw [← shifts_add, Nat.add_comm, Nat.mul_succ]

/-- Up to four bytes are told apart by what they do to a register. -/
theorem foldl_push_inj {v w : Bytes} (hlength : v.length = w.length) (hv : v.length ≤ 4)
    {r : BitVec 32} (h : v.foldl push r = w.foldl push r) : v = w := by
  rw [foldl_push_eq hv, foldl_push_eq (hlength ▸ hv), hlength] at h
  exact word_inj hlength hv ((BitVec.xor_right_inj _).1 (shifts_injective _ h))

end Checksum

/-- Bytes that differ within four consecutive ones have different checksums. -/
theorem crc32_burst {before v w after : Bytes} (hlength : v.length = w.length) (hv : v.length ≤ 4)
    (h : crc32 (before ++ v ++ after) = crc32 (before ++ w ++ after)) : v = w := by
  simp only [crc32, List.foldl_append, BitVec.not_inj] at h
  exact Checksum.foldl_push_inj hlength hv (Checksum.foldl_push_injective after h)

end Goalbase

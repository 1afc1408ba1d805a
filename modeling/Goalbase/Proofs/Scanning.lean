import Goalbase.Utf8
import Mathlib.Data.List.Basic

/-!
# Goalbase.Proofs.Scanning

UTF-8 is read back as it was written.

`Utf8.next?_encodeChar` says that the bytes of a character, whatever follows them, are read as that
character; so scanning encoded text gives its characters and finds nothing broken (`Utf8.scan_encode`,
`Utf8.decode?_encode`).
-/

namespace Goalbase

namespace Utf8

/-- The code points that are characters: all but the surrogates. -/
theorem toNat_scalar (c : Char) : c.toNat < 0xD800 ∨ 0xDFFF < c.toNat ∧ c.toNat < 0x110000 := c.valid

theorem toNat_toUInt8 {n : Nat} (h : n < 256) : n.toUInt8.toNat = n := by
  simp only [Nat.toUInt8, UInt8.toNat_ofNat']
  omega

theorem tail?_of_lt {n : Nat} (h : n < 64) : tail? (0x80 + n).toUInt8 = some n := by
  have hn : (0x80 + n).toUInt8.toNat = 0x80 + n := toNat_toUInt8 (by omega)
  simp only [tail?, hn]
  rw [if_pos (by omega), Nat.add_sub_cancel_left]

theorem one?_of_lt {n : Nat} (h : n < 0x80) : one? n.toUInt8 = some (Char.ofNat n) := by
  have hn : n.toUInt8.toNat = n := toNat_toUInt8 (by omega)
  simp only [one?, hn]
  rw [if_pos h]

theorem one?_of_le {b : UInt8} (h : 0x80 ≤ b.toNat) : one? b = none := by
  simp only [one?]
  rw [if_neg (by omega)]

theorem two?_of_le {a b : UInt8} (h : 0xE0 ≤ a.toNat) : two? a b = none := by
  simp only [two?]
  rw [if_neg (by omega)]

theorem three?_of_le {a b c : UInt8} (h : 0xF0 ≤ a.toNat) : three? a b c = none := by
  simp only [three?]
  rw [if_neg (by omega)]

theorem two?_of_lt {n : Nat} (h : 0x80 ≤ n) (h' : n < 0x800) :
    two? (0xC0 + n / 64).toUInt8 (0x80 + n % 64).toUInt8 = some (Char.ofNat n) := by
  have ha : (0xC0 + n / 64).toUInt8.toNat = 0xC0 + n / 64 := toNat_toUInt8 (by omega)
  have hn : (0xC0 + n / 64 - 0xC0) * 64 + n % 64 = n := by omega
  simp only [two?, ha, tail?_of_lt (Nat.mod_lt n (by decide : 64 > 0)), hn]
  rw [if_pos (by omega)]

theorem three?_of_lt {n : Nat} (h : 0x800 ≤ n) (h' : n < 0x10000)
    (hs : ¬(0xD800 ≤ n ∧ n < 0xE000)) :
    three? (0xE0 + n / 4096).toUInt8 (0x80 + n / 64 % 64).toUInt8 (0x80 + n % 64).toUInt8
      = some (Char.ofNat n) := by
  have ha : (0xE0 + n / 4096).toUInt8.toNat = 0xE0 + n / 4096 := toNat_toUInt8 (by omega)
  have hn : (0xE0 + n / 4096 - 0xE0) * 4096 + n / 64 % 64 * 64 + n % 64 = n := by omega
  simp only [three?, ha, tail?_of_lt (Nat.mod_lt _ (by decide : 64 > 0)), hn]
  rw [if_pos (by omega), if_pos ⟨h, hs⟩]

theorem four?_of_lt {n : Nat} (h : 0x10000 ≤ n) (h' : n < 0x110000) :
    four? (0xF0 + n / 262144).toUInt8 (0x80 + n / 4096 % 64).toUInt8 (0x80 + n / 64 % 64).toUInt8
      (0x80 + n % 64).toUInt8 = some (Char.ofNat n) := by
  have ha : (0xF0 + n / 262144).toUInt8.toNat = 0xF0 + n / 262144 := toNat_toUInt8 (by omega)
  have hn : (0xF0 + n / 262144 - 0xF0) * 262144 + n / 4096 % 64 * 4096 + n / 64 % 64 * 64 + n % 64
      = n := by omega
  simp only [four?, ha, tail?_of_lt (Nat.mod_lt _ (by decide : 64 > 0)), hn]
  rw [if_pos (by omega), if_pos ⟨h, h'⟩]

/-- The bytes of a character are read as that character, whatever follows. -/
theorem next?_encodeChar (c : Char) (rest : Bytes) :
    next? (encodeChar c ++ rest) = some (c, rest) := by
  have hc : Char.ofNat c.toNat = c := Char.ofNat_toNat c
  have hscalar := toNat_scalar c
  by_cases h1 : c.toNat < 0x80
  · simp only [encodeChar, h1, if_true, List.cons_append, List.nil_append, next?, one?_of_lt, hc]
  by_cases h2 : c.toNat < 0x800
  · have ha : (0xC0 + c.toNat / 64).toUInt8.toNat = 0xC0 + c.toNat / 64 := toNat_toUInt8 (by omega)
    have hone : one? (0xC0 + c.toNat / 64).toUInt8 = none := one?_of_le (by omega)
    simp only [encodeChar, h1, h2, if_true, if_false, List.cons_append, List.nil_append, next?, hone,
      two?_of_lt (Nat.not_lt.1 h1) h2, hc]
  by_cases h3 : c.toNat < 0x10000
  · have ha : (0xE0 + c.toNat / 4096).toUInt8.toNat = 0xE0 + c.toNat / 4096 :=
      toNat_toUInt8 (by omega)
    have hone : one? (0xE0 + c.toNat / 4096).toUInt8 = none := one?_of_le (by omega)
    have htwo : ∀ b, two? (0xE0 + c.toNat / 4096).toUInt8 b = none := fun b => two?_of_le (by omega)
    simp only [encodeChar, h1, h2, h3, if_true, if_false, List.cons_append, List.nil_append, next?,
      hone, htwo, three?_of_lt (Nat.not_lt.1 h2) h3 (by omega), hc]
  · have ha : (0xF0 + c.toNat / 262144).toUInt8.toNat = 0xF0 + c.toNat / 262144 :=
      toNat_toUInt8 (by omega)
    have hone : one? (0xF0 + c.toNat / 262144).toUInt8 = none := one?_of_le (by omega)
    have htwo : ∀ b, two? (0xF0 + c.toNat / 262144).toUInt8 b = none :=
      fun b => two?_of_le (by omega)
    have hthree : ∀ b d, three? (0xF0 + c.toNat / 262144).toUInt8 b d = none :=
      fun b d => three?_of_le (by omega)
    simp only [encodeChar, h1, h2, h3, if_false, List.cons_append, List.nil_append, next?, hone, htwo,
      hthree, four?_of_lt (Nat.not_lt.1 h3) (by omega), hc]

theorem encodeChar_ne_nil (c : Char) : encodeChar c ≠ [] := by
  simp only [encodeChar]
  split
  · exact List.cons_ne_nil _ _
  · split
    · exact List.cons_ne_nil _ _
    · split <;> exact List.cons_ne_nil _ _

/-- Every character takes a byte, so as many steps as bytes are enough. -/
theorem scanOnto_encode (done : List (Option Char)) (cs : List Char) {tries : Nat}
    (h : (encode cs).length ≤ tries) :
    scanOnto done tries (encode cs) = done.reverse ++ cs.map some := by
  induction cs generalizing done tries with
  | nil => cases tries <;> simp [encode, scanOnto]
  | cons c cs ih =>
    have hsplit : encode (c :: cs) = encodeChar c ++ encode cs := List.flatMap_cons
    have hnext := next?_encodeChar c (encode cs)
    obtain ⟨a, as, ha⟩ := List.exists_cons_of_ne_nil (encodeChar_ne_nil c)
    rw [hsplit, List.length_append] at h
    rw [hsplit]
    rw [ha, List.cons_append] at hnext ⊢
    rw [ha, List.length_cons] at h
    cases tries with
    | zero => omega
    | succ tries =>
      simp only [scanOnto, hnext]
      rw [ih (some c :: done) (by omega)]
      simp

/-- Encoded text is read as its characters. -/
theorem scan_encode (cs : List Char) : scan (encode cs) = cs.map some :=
  scanOnto_encode [] cs (Nat.le_refl _)

theorem allSome_map_some {α : Type} (as : List α) : allSome (as.map some) = some as := by
  induction as with
  | nil => rfl
  | cons a as ih => simp only [List.map_cons, allSome, ih]

theorem decode?_encode (cs : List Char) : decode? (encode cs) = some cs := by
  rw [decode?, scan_encode, allSome_map_some]

end Utf8

end Goalbase

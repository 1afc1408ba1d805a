import Goalbase.Proofs.Scanning
import Mathlib.Data.String.Basic

/-!
# Goalbase.Proofs.ByteOrder

The order of text is the order of its bytes.

Byte lists are ordered by their first difference, a list before its extensions (`Bytes.Before`).
Code points in ascending order have encodings in ascending order, none a start of another
(`Utf8.before_encodeChar`), so text is ordered like its bytes (`utf8_before_iff`).
-/

namespace Goalbase

/-- The first difference decides, and a list comes before its extensions. -/
inductive Bytes.Before : Bytes → Bytes → Prop where
  | nil (b : UInt8) (bs : Bytes) : Before [] (b :: bs)
  | head {a b : UInt8} (h : a.toNat < b.toNat) (as bs : Bytes) : Before (a :: as) (b :: bs)
  | tail (b : UInt8) {as bs : Bytes} (h : Before as bs) : Before (b :: as) (b :: bs)

namespace Bytes.Before

variable {as bs : Bytes}

theorem asymm (h : Before as bs) : ¬Before bs as := by
  induction h with
  | nil b bs => exact fun h' => by cases h'
  | head h as bs =>
    intro h'
    cases h' with
    | head h' _ _ => exact Nat.lt_asymm h h'
    | tail _ _ => exact Nat.lt_irrefl _ h
  | tail b _ ih =>
    intro h'
    cases h' with
    | head h' _ _ => exact Nat.lt_irrefl _ h'
    | tail _ h' => exact ih h'

theorem append_left (ps : Bytes) (h : Before as bs) : Before (ps ++ as) (ps ++ bs) := by
  induction ps with
  | nil => exact h
  | cons p ps ih => exact .tail p ih

/-- A byte that is not greater is in front, and where it is equal the rest decides. -/
theorem cons_toUInt8 {m n : Nat} (hm : m < 256) (hn : n < 256) (h : m ≤ n)
    (h' : m = n → Before as bs) : Before (m.toUInt8 :: as) (n.toUInt8 :: bs) := by
  obtain h | rfl := Nat.lt_or_eq_of_le h
  · refine .head ?_ as bs
    rwa [Utf8.toNat_toUInt8 hm, Utf8.toNat_toUInt8 hn]
  · exact .tail _ (h' rfl)

end Bytes.Before

namespace Utf8

open Bytes (Before)
open Bytes.Before (cons_toUInt8)

/-- A character takes one to four bytes. -/
theorem encodeChar_cases (c : Char) :
    (c.toNat < 0x80 ∧ encodeChar c = [c.toNat.toUInt8])
    ∨ ((0x80 ≤ c.toNat ∧ c.toNat < 0x800)
      ∧ encodeChar c = [(0xC0 + c.toNat / 64).toUInt8, (0x80 + c.toNat % 64).toUInt8])
    ∨ ((0x800 ≤ c.toNat ∧ c.toNat < 0x10000)
      ∧ encodeChar c = [(0xE0 + c.toNat / 4096).toUInt8, (0x80 + c.toNat / 64 % 64).toUInt8,
        (0x80 + c.toNat % 64).toUInt8])
    ∨ ((0x10000 ≤ c.toNat ∧ c.toNat < 0x110000)
      ∧ encodeChar c = [(0xF0 + c.toNat / 262144).toUInt8, (0x80 + c.toNat / 4096 % 64).toUInt8,
        (0x80 + c.toNat / 64 % 64).toUInt8, (0x80 + c.toNat % 64).toUInt8]) := by
  have hscalar := toNat_scalar c
  simp only [encodeChar]
  split
  · exact .inl ⟨by assumption, rfl⟩
  · split
    · exact .inr (.inl ⟨by omega, rfl⟩)
    · split
      · exact .inr (.inr (.inl ⟨by omega, rfl⟩))
      · exact .inr (.inr (.inr ⟨by omega, rfl⟩))

/-- The encodings of two characters differ before one of them ends. -/
theorem before_encodeChar {c d : Char} (h : c.toNat < d.toNat) (as bs : Bytes) :
    Before (encodeChar c ++ as) (encodeChar d ++ bs) := by
  rcases encodeChar_cases c with ⟨hc, he⟩ | ⟨hc, he⟩ | ⟨hc, he⟩ | ⟨hc, he⟩ <;>
    rcases encodeChar_cases d with ⟨hd, hf⟩ | ⟨hd, hf⟩ | ⟨hd, hf⟩ | ⟨hd, hf⟩ <;>
    rw [he, hf]
  -- a longer encoding starts with a greater byte
  all_goals first
    | omega
    | exact cons_toUInt8 (by omega) (by omega) (by omega) (by omega)
    | skip
  · exact cons_toUInt8 (by omega) (by omega) (by omega) fun h₁ =>
      cons_toUInt8 (by omega) (by omega) (by omega) (by omega)
  · exact cons_toUInt8 (by omega) (by omega) (by omega) fun h₁ =>
      cons_toUInt8 (by omega) (by omega) (by omega) fun h₂ =>
        cons_toUInt8 (by omega) (by omega) (by omega) (by omega)
  · exact cons_toUInt8 (by omega) (by omega) (by omega) fun h₁ =>
      cons_toUInt8 (by omega) (by omega) (by omega) fun h₂ =>
        cons_toUInt8 (by omega) (by omega) (by omega) fun h₃ =>
          cons_toUInt8 (by omega) (by omega) (by omega) (by omega)

theorem encode_cons (c : Char) (cs : List Char) : encode (c :: cs) = encodeChar c ++ encode cs :=
  List.flatMap_cons

theorem before_encode {cs ds : List Char} (h : cs < ds) : Before (encode cs) (encode ds) := by
  induction cs generalizing ds with
  | nil =>
    cases ds with
    | nil => exact absurd h (List.lt_irrefl [])
    | cons d ds =>
      obtain ⟨b, bs, hb⟩ := List.exists_cons_of_ne_nil (encodeChar_ne_nil d)
      rw [encode_cons, hb]
      exact .nil b _
  | cons c cs ih =>
    cases ds with
    | nil => exact absurd h (List.not_lt_nil _)
    | cons d ds =>
      rw [encode_cons, encode_cons]
      obtain hlt | ⟨rfl, hlt⟩ := List.cons_lt_cons_iff.1 h
      · exact before_encodeChar hlt _ _
      · exact (ih hlt).append_left _

end Utf8

/-- Text is ordered code point by code point as it is ordered byte by byte. -/
theorem utf8_before_iff {s t : String} : (utf8 s).Before (utf8 t) ↔ s < t := by
  have hbefore : ∀ {s t : String}, s < t → (utf8 s).Before (utf8 t) := fun h =>
    Utf8.before_encode (String.lt_iff_toList_lt.1 h)
  refine ⟨fun h => ?_, hbefore⟩
  rcases lt_trichotomy s t with hlt | rfl | hlt
  · exact hlt
  · exact absurd h h.asymm
  · exact absurd (hbefore hlt) h.asymm

end Goalbase

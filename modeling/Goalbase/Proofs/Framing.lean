import Goalbase.Store
import Mathlib.Data.List.Basic

/-!
# Goalbase.Proofs.Framing

Records are read back as they were framed, and nothing else is read.

`Record.decode?_encode` says that a payload whose length has room in eight bytes is found in its
frame again, whether or not the checksum is verified. A record that is read has the parts of a frame,
one behind the other (`exists_parts`, `decode?_eq_ok`), and every field is the only spelling of its
number (`littleEndian_ofLittleEndian`); so a payload is read from its own frame only, up to the bytes
of a checksum that is not verified (`unframe_exact`).
-/

namespace Goalbase

namespace Record

/-- Lengths below this one are written in eight bytes. -/
def lengthLimit : Nat := Nat.pow 256 8

theorem length_littleEndian (count n : Nat) : (littleEndian count n).length = count := by
  induction count generalizing n with
  | zero => rfl
  | succ count ih => rw [littleEndian, List.length_cons, ih]

/-- A number that has room in the bytes is read back from them. -/
theorem ofLittleEndian_littleEndian {count n : Nat} (h : n < Nat.pow 256 count) :
    ofLittleEndian (littleEndian count n) = n := by
  induction count generalizing n with
  | zero =>
    have hone : Nat.pow 256 0 = 1 := rfl
    rw [littleEndian, ofLittleEndian]
    omega
  | succ count ih =>
    have hpow : Nat.pow 256 (count + 1) = 256 * Nat.pow 256 count := Nat.pow_succ'
    have hlow : n.toUInt8.toNat = n % 256 := UInt8.toNat_ofNat'
    rw [littleEndian, ofLittleEndian, hlow, ih (by omega)]
    exact Nat.mod_add_div n 256

/-- The parts of a frame, one behind the other. -/
theorem decode?_parts (verify : Bool) {sum length payload : Bytes} (hsum : sum.length = 4)
    (hlength : length.length = 8) :
    decode? verify (magic ++ sum ++ length ++ payload)
      = if ofLittleEndian length ≠ payload.length then .error .lengthMismatch
        else if verify && !checksumHolds payload (ofLittleEndian sum) then .error .checksumMismatch
        else .ok payload := by
  have hmagic : magic.length = 4 := rfl
  have hsums : (magic ++ sum).length = 8 := by rw [List.length_append, hmagic, hsum]
  have hhead : (magic ++ sum ++ length).length = headerLength := by
    rw [List.length_append, hsums, hlength]
    rfl
  have htotal : ¬(magic ++ sum ++ length ++ payload).length < headerLength := by
    rw [List.length_append, hhead]
    omega
  have hpayload : (magic ++ sum ++ length ++ payload).drop headerLength = payload :=
    List.drop_left' hhead
  have hfour : (magic ++ sum ++ length ++ payload).take 4 = magic := by
    rw [List.append_assoc, List.append_assoc]
    exact List.take_left' hmagic
  have hsumRead : ((magic ++ sum ++ length ++ payload).drop 4).take 4 = sum := by
    rw [List.append_assoc, List.append_assoc, List.drop_left' hmagic]
    exact List.take_left' hsum
  have hlengthRead : ((magic ++ sum ++ length ++ payload).drop 8).take 8 = length := by
    rw [List.append_assoc, List.drop_left' hsums]
    exact List.take_left' hlength
  rw [decode?, if_neg htotal, hfour, if_neg (not_not.2 rfl), hpayload, hsumRead, hlengthRead]

theorem decode?_encode (verify : Bool) {payload : Bytes} (h : payload.length < lengthLimit) :
    decode? verify (encode payload) = .ok payload := by
  have hsum : ofLittleEndian (littleEndian 4 (crc32 payload).toNat) = (crc32 payload).toNat :=
    ofLittleEndian_littleEndian (crc32 payload).isLt
  have hlength : ofLittleEndian (littleEndian 8 payload.length) = payload.length :=
    ofLittleEndian_littleEndian h
  have hholds : checksumHolds payload (crc32 payload).toNat = true := beq_self_eq_true _
  rw [encode, decode?_parts verify (length_littleEndian 4 _) (length_littleEndian 8 _), hsum, hlength,
    hholds, Bool.not_true, Bool.and_false, if_neg (not_not.2 rfl)]
  rfl

/-! ## What is read -/

theorem ofLittleEndian_lt (bytes : Bytes) :
    ofLittleEndian bytes < Nat.pow 256 bytes.length := by
  induction bytes with
  | nil => exact Nat.one_pos
  | cons b rest ih =>
    have hpow : Nat.pow 256 (rest.length + 1) = 256 * Nat.pow 256 rest.length := Nat.pow_succ'
    have hb : b.toNat < 256 := b.toNat_lt
    rw [ofLittleEndian, List.length_cons, hpow]
    omega

theorem littleEndian_ofLittleEndian (bytes : Bytes) :
    littleEndian bytes.length (ofLittleEndian bytes) = bytes := by
  induction bytes with
  | nil => rfl
  | cons b rest ih =>
    have hb : b.toNat < 256 := b.toNat_lt
    have hlow : (b.toNat + 256 * ofLittleEndian rest).toUInt8 = b := by
      apply UInt8.toNat.inj
      rw [UInt8.toNat_ofNat']
      omega
    have hhigh : (b.toNat + 256 * ofLittleEndian rest) / 256 = ofLittleEndian rest := by omega
    rw [ofLittleEndian, List.length_cons, littleEndian, hlow, hhigh, ih]

/-- Bytes of a given number are the only spelling of what they are read as. -/
theorem littleEndian_eq {bytes : Bytes} {count n : Nat} (hlength : bytes.length = count)
    (h : ofLittleEndian bytes = n) : bytes = littleEndian count n := by
  rw [← h, ← hlength, littleEndian_ofLittleEndian]

theorem take_append_drop_add (bytes : Bytes) (i n : Nat) :
    (bytes.drop i).take n ++ bytes.drop (i + n) = bytes.drop i := by
  rw [← List.drop_drop, List.take_append_drop]

theorem exists_parts {bytes : Bytes} (h : headerLength ≤ bytes.length) :
    ∃ start sum length payload, start.length = 4 ∧ sum.length = 4 ∧ length.length = 8
      ∧ bytes = start ++ sum ++ length ++ payload := by
  have hbytes : 16 ≤ bytes.length := h
  refine ⟨bytes.take 4, (bytes.drop 4).take 4, (bytes.drop 8).take 8, bytes.drop 16, ?_, ?_, ?_, ?_⟩
  · rw [List.length_take]
    omega
  · rw [List.length_take, List.length_drop]
    omega
  · rw [List.length_take, List.length_drop]
    omega
  · rw [List.append_assoc, List.append_assoc, take_append_drop_add bytes 8 8,
      take_append_drop_add bytes 4 4, List.take_append_drop]

theorem decode?_badMagic (verify : Bool) {start sum length payload : Bytes}
    (hstart : start.length = 4) (hsum : sum.length = 4) (hlength : length.length = 8)
    (h : start ≠ magic) :
    decode? verify (start ++ sum ++ length ++ payload) = .error .badMagic := by
  have htotal : ¬(start ++ sum ++ length ++ payload).length < headerLength := by
    have hheader : headerLength = 16 := rfl
    simp only [List.length_append, hstart, hsum, hlength, hheader]
    omega
  have hfour : (start ++ sum ++ length ++ payload).take 4 = start := by
    rw [List.append_assoc, List.append_assoc]
    exact List.take_left' hstart
  rw [decode?, if_neg htotal, hfour, if_pos h]

theorem length_magic : magic.length = 4 := rfl

/-- What is read from bytes has a frame there, with the checksum of its own if that is verified. -/
theorem decode?_eq_ok {verify : Bool} {bytes payload : Bytes} :
    decode? verify bytes = .ok payload ↔ payload.length < lengthLimit ∧ ∃ sum, sum.length = 4
      ∧ bytes = magic ++ sum ++ littleEndian 8 payload.length ++ payload
      ∧ (verify = true → ofLittleEndian sum = (crc32 payload).toNat) := by
  constructor
  · intro h
    by_cases hheader : bytes.length < headerLength
    · rw [decode?, if_pos hheader] at h
      cases h
    · obtain ⟨start, sum, length, rest, hstart, hsum, hlength, rfl⟩ :=
        exists_parts (Nat.le_of_not_lt hheader)
      by_cases hmagic : start = magic
      · rw [hmagic, decode?_parts verify hsum hlength] at h
        split at h
        · cases h
        · rename_i hcount
          split at h
          · cases h
          · rename_i hholds
            cases h
            have hcount := not_not.1 hcount
            refine ⟨?_, sum, hsum, ?_, fun hverify => ?_⟩
            · rw [← hcount, lengthLimit, ← hlength]
              exact ofLittleEndian_lt length
            · rw [hmagic, littleEndian_eq hlength hcount]
            · rw [hverify, Bool.true_and, Bool.not_eq_true', Bool.not_eq_false] at hholds
              exact (eq_of_beq hholds).symm
      · rw [decode?_badMagic verify hstart hsum hlength hmagic] at h
        cases h
  · rintro ⟨hlimit, sum, hsum, rfl, hverify⟩
    have hcount : ofLittleEndian (littleEndian 8 payload.length) = payload.length :=
      ofLittleEndian_littleEndian hlimit
    have hholds : (verify && !checksumHolds payload (ofLittleEndian sum)) = false := by
      cases verify with
      | false => rfl
      | true => simp [checksumHolds, hverify rfl]
    rw [decode?_parts verify hsum (length_littleEndian 8 _), hcount, hholds, if_neg (not_not.2 rfl)]
    rfl

theorem take_congr {a b : Bytes} {n : Nat} (h : ∀ i, i < n → a[i]? = b[i]?) :
    a.take n = b.take n := by
  apply List.ext_getElem?
  intro i
  simp only [List.getElem?_take]
  split
  · rename_i hi
    exact h i hi
  · rfl

theorem drop_congr {a b : Bytes} {n : Nat} (h : ∀ i, n ≤ i → a[i]? = b[i]?) :
    a.drop n = b.drop n := by
  apply List.ext_getElem?
  intro i
  simp only [List.getElem?_drop]
  exact h _ (Nat.le_add_right n i)

/-- The record and the bytes differ at most in the four bytes of the checksum. -/
def SameButChecksum (bytes record : Bytes) : Prop :=
  ∀ i, i < 4 ∨ 8 ≤ i → bytes[i]? = record[i]?

theorem sameButChecksum_iff {start sum rest bytes : Bytes} (hstart : start.length = 4)
    (hsum : sum.length = 4) (hrest : rest ≠ []) :
    SameButChecksum bytes (start ++ sum ++ rest)
      ↔ ∃ sum', sum'.length = 4 ∧ bytes = start ++ sum' ++ rest := by
  have hparts : ∀ sum' : Bytes, sum'.length = 4 →
      (start ++ sum' ++ rest).take 4 = start ∧ (start ++ sum' ++ rest).drop 8 = rest := by
    intro sum' hsum'
    constructor
    · rw [List.append_assoc]
      exact List.take_left' hstart
    · exact List.drop_left' (by rw [List.length_append, hstart, hsum'])
  constructor
  · intro h
    have hstarts : bytes.take 4 = start := by
      rw [← (hparts sum hsum).1]
      exact take_congr fun i hi => h i (.inl hi)
    have hrests : bytes.drop 8 = rest := by
      rw [← (hparts sum hsum).2]
      exact drop_congr fun i hi => h i (.inr hi)
    have hlength : 8 < bytes.length := by
      by_contra hle
      rw [List.drop_eq_nil_of_le (Nat.le_of_not_lt hle)] at hrests
      exact hrest hrests.symm
    refine ⟨(bytes.drop 4).take 4, by rw [List.length_take, List.length_drop]; omega, ?_⟩
    rw [List.append_assoc, ← hrests, take_append_drop_add bytes 4 4, ← hstarts,
      List.take_append_drop]
  · rintro ⟨sum', hsum', rfl⟩ i hi
    rcases hi with hi | hi
    · have hi : i < start.length := by rwa [hstart]
      rw [List.append_assoc, List.append_assoc, List.getElem?_append_left hi,
        List.getElem?_append_left hi]
    · rw [List.getElem?_append_right (by rw [List.length_append]; omega),
        List.getElem?_append_right (by rw [List.length_append]; omega), List.length_append,
        List.length_append, hsum, hsum']

/-- What a store answers for the bytes of a record under a key. -/
def unframe (key : String) (verify : Bool) (bytes : Bytes) : Except StoreError Bytes :=
  match decode? verify bytes with
  | .error damage => .error (.ofDamage key damage)
  | .ok payload => .ok payload

theorem unframe_eq_ok {key : String} {verify : Bool} {bytes payload : Bytes} :
    unframe key verify bytes = .ok payload ↔ decode? verify bytes = .ok payload := by
  rw [unframe]
  cases decode? verify bytes <;> simp

/-- A payload is read from its frame and, with the checksum verified, from nothing else; without,
also from what differs from its frame in the checksum only. -/
theorem unframe_exact {payload : Bytes} (h : payload.length < lengthLimit) (key : String)
    (bytes : Bytes) :
    (unframe key true bytes = .ok payload ↔ bytes = encode payload)
      ∧ (unframe key false bytes = .ok payload ↔ SameButChecksum bytes (encode payload))
      ∧ unframe key false (encode payload) = unframe key true (encode payload)
      ∧ ∀ other, encode other = encode payload → other = payload := by
  refine ⟨?_, ?_, ?_, fun other hother => ?_⟩
  · rw [unframe_eq_ok, decode?_eq_ok]
    constructor
    · rintro ⟨-, sum, hsum, rfl, hverify⟩
      rw [littleEndian_eq hsum (hverify rfl), encode]
    · rintro rfl
      exact ⟨h, _, length_littleEndian 4 _, rfl, fun _ =>
        ofLittleEndian_littleEndian (crc32 payload).isLt⟩
  · have hrest : littleEndian 8 payload.length ++ payload ≠ [] := by
      intro hnil
      have hlength := congrArg List.length hnil
      rw [List.length_append, length_littleEndian, List.length_nil] at hlength
      omega
    rw [unframe_eq_ok, decode?_eq_ok, encode, List.append_assoc _ (littleEndian 8 payload.length),
      sameButChecksum_iff length_magic (length_littleEndian 4 _) hrest]
    constructor
    · rintro ⟨-, sum, hsum, rfl, -⟩
      exact ⟨sum, hsum, List.append_assoc _ _ _⟩
    · rintro ⟨sum, hsum, rfl⟩
      exact ⟨h, sum, hsum, (List.append_assoc _ _ _).symm, nofun⟩
  · rw [unframe, unframe, decode?_encode false h, decode?_encode true h]
  · have hheader : ∀ p : Bytes, (encode p).drop headerLength = p := fun p =>
      List.drop_left' (by simp only [List.length_append, length_magic, length_littleEndian]; rfl)
    rw [← hheader other, hother, hheader payload]

/-- A record whose checksum was zeroed is read only where the checksum is not verified. -/
theorem unframe_exact_zeroed :
    let payload : Bytes := [0x7B, 0x7D]
    let zeroed := magic ++ [0, 0, 0, 0] ++ littleEndian 8 payload.length ++ payload
    payload.length < lengthLimit ∧ unframe "k" true zeroed ≠ .ok payload
      ∧ unframe "k" false zeroed = .ok payload := by
  intro payload zeroed
  have hlimit : payload.length < lengthLimit := by decide
  obtain ⟨hverified, hunverified, -, -⟩ := unframe_exact hlimit "k" zeroed
  have hrest : littleEndian 8 payload.length ++ payload ≠ [] := by decide
  refine ⟨hlimit, fun h => ?_, hunverified.2 ?_⟩
  · have hne : zeroed ≠ encode payload := by decide +kernel
    exact hne (hverified.1 h)
  · rw [encode, List.append_assoc _ (littleEndian 8 payload.length),
      sameButChecksum_iff length_magic (length_littleEndian 4 _) hrest]
    exact ⟨[0, 0, 0, 0], rfl, rfl⟩

end Record

end Goalbase

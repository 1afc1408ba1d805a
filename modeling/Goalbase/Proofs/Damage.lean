import Goalbase.Proofs.Bursts
import Goalbase.Proofs.Framing
import Goalbase.Store.Local

/-!
# Goalbase.Proofs.Damage

Damage to a stored record is always reported.

`Altered` lists what may happen to the bytes of a record: one byte is replaced, bits change within
four consecutive bytes of the payload, the record is cut short or goes on. What the checksum covers
is found by the checksum (`eq_of_crc32`), and the rest by the frame; nothing is read from such bytes
(`damage_reported`). A store answers for a file as `Record.unframe` does for its bytes
(`LocalStore.readRecord_eq_unframe`).
-/

namespace Goalbase

namespace Record

/-- Bytes that differ within four consecutive ones at most have different checksums, or are the
same. -/
theorem eq_of_crc32 {a b : Bytes} {n : Nat} (hlength : a.length = b.length)
    (hsame : ∀ i, i < n ∨ n + 4 ≤ i → a[i]? = b[i]?) (h : crc32 a = crc32 b) : a = b := by
  have hbefore : a.take n = b.take n := take_congr fun i hi => hsame i (.inl hi)
  have hafter : a.drop (n + 4) = b.drop (n + 4) := drop_congr fun i hi => hsame i (.inr hi)
  have hsplit : ∀ c : Bytes, c = c.take n ++ (c.drop n).take 4 ++ c.drop (n + 4) := by
    intro c
    rw [List.append_assoc, take_append_drop_add, List.take_append_drop]
  rw [hsplit a, hsplit b, hbefore, hafter] at h
  have hlengths : ((a.drop n).take 4).length = ((b.drop n).take 4).length := by
    simp only [List.length_take, List.length_drop, hlength]
  have hwindow : (a.drop n).take 4 = (b.drop n).take 4 :=
    crc32_burst hlengths (List.length_take_le 4 _) h
  rw [hsplit a, hsplit b, hbefore, hafter, hwindow]

/-- What may happen to the bytes of a record, and whether it happens to bytes that the checksum
tells something about. -/
inductive Altered (record : Bytes) : Bytes → (summed : Bool) → Prop where
  | replaced {i : Nat} {b c : UInt8} (hi : record[i]? = some c) (hb : b ≠ c) :
      Altered record (record.set i b) (decide (4 ≤ i ∧ i < 8 ∨ headerLength ≤ i))
  | burst {bytes : Bytes} {i : Nat} (hne : bytes ≠ record) (hlength : bytes.length = record.length)
      (hi : headerLength ≤ i) (hsame : ∀ k, k < i ∨ i + 4 ≤ k → bytes[k]? = record[k]?) :
      Altered record bytes true
  | cut {n : Nat} (hn : n < record.length) : Altered record (record.take n) false
  | extended {extra : Bytes} (h : extra ≠ []) : Altered record (record ++ extra) false

variable {payload : Bytes}

theorem decode?_otherSum {sum : Bytes} (hsum : sum.length = 4)
    (hlimit : payload.length < lengthLimit) (h : ofLittleEndian sum ≠ (crc32 payload).toNat) :
    decode? true (magic ++ sum ++ littleEndian 8 payload.length ++ payload)
      = .error .checksumMismatch := by
  have hcount : ofLittleEndian (littleEndian 8 payload.length) = payload.length :=
    ofLittleEndian_littleEndian hlimit
  have hholds : checksumHolds payload (ofLittleEndian sum) = false :=
    beq_eq_false_iff_ne.2 (Ne.symm h)
  rw [decode?_parts true hsum (length_littleEndian 8 _), hcount, hholds, if_neg (not_not.2 rfl)]
  rfl

theorem decode?_otherLength (verify : Bool) {sum length : Bytes} (hsum : sum.length = 4)
    (hlength : length.length = 8) (h : ofLittleEndian length ≠ payload.length) :
    decode? verify (magic ++ sum ++ length ++ payload) = .error .lengthMismatch := by
  rw [decode?_parts verify hsum hlength, if_pos h]

/-- What stands before a payload. -/
def header (payload : Bytes) : Bytes :=
  magic ++ littleEndian 4 (crc32 payload).toNat ++ littleEndian 8 payload.length

theorem encode_eq (payload : Bytes) : encode payload = header payload ++ payload := rfl

theorem length_header (payload : Bytes) : (header payload).length = headerLength := by
  simp only [header, List.length_append, length_magic, length_littleEndian]
  rfl

theorem length_encode (payload : Bytes) :
    (encode payload).length = headerLength + payload.length := by
  rw [encode_eq, List.length_append, length_header]

theorem set_ne_self {bytes : Bytes} {i : Nat} {b c : UInt8} (hi : bytes[i]? = some c)
    (hb : b ≠ c) : bytes.set i b ≠ bytes := by
  intro h
  have hlt : i < bytes.length := (List.getElem?_eq_some_iff.1 hi).1
  have hset := congrArg (fun l => l[i]?) h
  simp only [List.getElem?_set_self hlt, hi] at hset
  exact hb (Option.some.inj hset)

/-- The checksum finds what changed within four consecutive bytes of the payload. -/
theorem decode?_burst (hlimit : payload.length < lengthLimit) {bytes : Bytes} {i : Nat}
    (hne : bytes ≠ encode payload) (hlength : bytes.length = (encode payload).length)
    (hi : headerLength ≤ i) (hsame : ∀ k, k < i ∨ i + 4 ≤ k → bytes[k]? = (encode payload)[k]?) :
    decode? true bytes = .error .checksumMismatch := by
  have hheader : bytes.take headerLength = header payload := by
    have htake : (header payload ++ payload).take headerLength = header payload :=
      List.take_left' (length_header payload)
    rw [← htake, ← encode_eq]
    exact take_congr fun k hk => hsame k (.inl (Nat.lt_of_lt_of_le hk hi))
  have hrest : (encode payload).drop headerLength = payload :=
    List.drop_left' (length_header payload)
  obtain ⟨other, hother⟩ : ∃ other, bytes.drop headerLength = other := ⟨_, rfl⟩
  have hbytes : bytes = header payload ++ other := by
    rw [← hheader, ← hother, List.take_append_drop]
  have hlengths : other.length = payload.length := by
    rw [← hother, List.length_drop, hlength, length_encode, Nat.add_sub_cancel_left]
  have hwindow : ∀ k, k < i - headerLength ∨ i - headerLength + 4 ≤ k →
      other[k]? = payload[k]? := by
    intro k hk
    rw [← hother, ← hrest, List.getElem?_drop, List.getElem?_drop]
    exact hsame _ (by omega)
  have hcrc : crc32 payload ≠ crc32 other := by
    intro h
    rw [eq_of_crc32 hlengths hwindow h.symm, ← encode_eq] at hbytes
    exact hne hbytes
  rw [hbytes, header, ← hlengths]
  refine decode?_otherSum (length_littleEndian 4 _) (hlengths ▸ hlimit) fun h => hcrc ?_
  rw [ofLittleEndian_littleEndian (crc32 payload).isLt] at h
  exact BitVec.eq_of_toNat_eq h

/-- A byte is replaced in one of the parts of a record. -/
theorem set_parts {start sum length : Bytes} (hstart : start.length = 4) (hsum : sum.length = 4)
    (hlength : length.length = 8) (payload : Bytes) (i : Nat) (b : UInt8) :
    (start ++ sum ++ length ++ payload).set i b
      = if i < 4 then start.set i b ++ sum ++ length ++ payload
        else if i < 8 then start ++ sum.set (i - 4) b ++ length ++ payload
        else if i < headerLength then start ++ sum ++ length.set (i - 8) b ++ payload
        else start ++ sum ++ length ++ payload.set (i - headerLength) b := by
  simp only [List.set_append, List.length_append, hstart, hsum, hlength, headerLength]
  by_cases hmagic : i < 4
  · simp [hmagic, Nat.lt_of_lt_of_le hmagic]
  · by_cases hlow : i < 8
    · simp [hmagic, hlow, Nat.lt_of_lt_of_le hlow]
    · by_cases hhigh : i < 16
      · simp [hmagic, hlow, hhigh]
      · simp [hmagic, hlow, hhigh]

/-- A replaced byte is found by the field it stands in. -/
theorem decode?_replaced (hlimit : payload.length < lengthLimit) {i : Nat} {b c : UInt8}
    (hi : (encode payload)[i]? = some c) (hb : b ≠ c) :
    decode? true ((encode payload).set i b)
      = .error (if i < 4 then .badMagic else if 8 ≤ i ∧ i < headerLength then .lengthMismatch
        else .checksumMismatch) := by
  have hsum : (littleEndian 4 (crc32 payload).toNat).length = 4 := length_littleEndian 4 _
  have hcount : (littleEndian 8 payload.length).length = 8 := length_littleEndian 8 _
  have hne : (encode payload).set i b ≠ encode payload := set_ne_self hi hb
  have hset : (encode payload).set i b = _ := set_parts length_magic hsum hcount payload i b
  by_cases hmagic : i < 4
  · rw [if_pos hmagic] at hset ⊢
    rw [hset] at hne ⊢
    refine decode?_badMagic true (by rw [List.length_set, length_magic]) hsum hcount fun h => hne ?_
    rw [h, encode]
  · rw [if_neg hmagic] at hset ⊢
    by_cases hlow : i < 8
    · rw [if_pos hlow] at hset
      rw [if_neg (by omega)]
      rw [hset] at hne ⊢
      refine decode?_otherSum (by rw [List.length_set, hsum]) hlimit fun h => hne ?_
      rw [littleEndian_eq (by rw [List.length_set, hsum]) h, encode]
    · rw [if_neg hlow] at hset
      by_cases hhigh : i < headerLength
      · rw [if_pos hhigh] at hset
        rw [if_pos ⟨Nat.le_of_not_lt hlow, hhigh⟩]
        rw [hset] at hne ⊢
        refine decode?_otherLength true hsum (by rw [List.length_set, hcount]) fun h => hne ?_
        rw [littleEndian_eq (by rw [List.length_set, hcount]) h, encode]
      · rw [if_neg (fun h => hhigh h.2)]
        refine decode?_burst hlimit hne (List.length_set ..) (Nat.le_of_not_lt hhigh) fun k hk => ?_
        exact List.getElem?_set_ne (by omega)

/-- A record that was cut short lacks a part of its header or of its payload. -/
theorem decode?_cut (verify : Bool) (hlimit : payload.length < lengthLimit) {n : Nat}
    (hn : n < (encode payload).length) : decode? verify ((encode payload).take n)
      = .error (if n < headerLength then .truncatedHeader else .lengthMismatch) := by
  have hlength : ((encode payload).take n).length = n := by
    rw [List.length_take, Nat.min_eq_left (Nat.le_of_lt hn)]
  by_cases hheader : n < headerLength
  · rw [decode?, hlength, if_pos hheader, if_pos hheader]
  · rw [length_encode] at hn
    have hcount : ofLittleEndian (littleEndian 8 payload.length) = payload.length :=
      ofLittleEndian_littleEndian hlimit
    have hwhole : (header payload).length ≤ n := by
      rw [length_header]
      exact Nat.le_of_not_lt hheader
    rw [if_neg hheader, encode_eq, List.take_append, List.take_of_length_le hwhole, length_header]
    refine decode?_otherLength verify (length_littleEndian 4 _) (length_littleEndian 8 _) ?_
    rw [hcount, List.length_take]
    omega

theorem decode?_extended (verify : Bool) (hlimit : payload.length < lengthLimit) {extra : Bytes}
    (h : extra ≠ []) : decode? verify (encode payload ++ extra) = .error .lengthMismatch := by
  have hextra : 0 < extra.length := List.length_pos_of_ne_nil h
  have hcount : ofLittleEndian (littleEndian 8 payload.length) = payload.length :=
    ofLittleEndian_littleEndian hlimit
  rw [encode, List.append_assoc _ payload]
  refine decode?_otherLength verify (length_littleEndian 4 _) (length_littleEndian 8 _) ?_
  rw [hcount, List.length_append]
  omega

/-- Altered bytes are never read: they are reported as fatal, by the checksum where it covers what
was altered and else by the frame. -/
theorem damage_reported (hlimit : payload.length < lengthLimit) (key : String) {bytes : Bytes}
    {summed : Bool} (h : Altered (encode payload) bytes summed) :
    ∃ e, unframe key true bytes = .error e ∧ e.isFatal = true
      ∧ if summed then e = .checksumMismatch key else ∃ reason, e = .corrupted key reason := by
  cases h with
  | @replaced i b c hi hb =>
    have hheader : headerLength = 16 := rfl
    rw [unframe, decode?_replaced hlimit hi hb]
    by_cases hmagic : i < 4
    · rw [if_pos hmagic, decide_eq_false (by omega)]
      exact ⟨_, rfl, rfl, _, rfl⟩
    · rw [if_neg hmagic]
      by_cases hlength : 8 ≤ i ∧ i < headerLength
      · rw [if_pos hlength, decide_eq_false (by omega)]
        exact ⟨_, rfl, rfl, _, rfl⟩
      · rw [if_neg hlength, decide_eq_true (by omega)]
        exact ⟨_, rfl, rfl, rfl⟩
  | burst hne hlength hi hsame =>
    rw [unframe, decode?_burst hlimit hne hlength hi hsame]
    exact ⟨_, rfl, rfl, rfl⟩
  | @cut n hn =>
    rw [unframe, decode?_cut true hlimit hn]
    by_cases hheader : n < headerLength
    · rw [if_pos hheader]
      exact ⟨_, rfl, rfl, _, rfl⟩
    · rw [if_neg hheader]
      exact ⟨_, rfl, rfl, _, rfl⟩
  | extended h =>
    rw [unframe, decode?_extended true hlimit h]
    exact ⟨_, rfl, rfl, _, rfl⟩

/-- Two bytes of the payload, not next to each other, are changed at once. -/
theorem damage_reported_apart :
    let payload : Bytes := [0x7B, 0x22, 0x61, 0x22, 0x7D]
    let bytes := ((encode payload).set 17 0x20).set 19 0x20
    payload.length < lengthLimit ∧ Altered (encode payload) bytes true
      ∧ unframe "k" true bytes = .error (.checksumMismatch "k") := by
  intro payload bytes
  have hlimit : payload.length < lengthLimit := by decide
  have haltered : Altered (encode payload) bytes true := by
    refine .burst (by decide +kernel) (by simp only [bytes, List.length_set]) (Nat.le_succ 16)
      fun k hk => ?_
    rw [List.getElem?_set_ne (by omega), List.getElem?_set_ne (by omega)]
  obtain ⟨e, he, -, hkind⟩ := damage_reported hlimit "k" haltered
  refine ⟨hlimit, haltered, ?_⟩
  rw [he, hkind]

end Record

/-- A store answers for a file as for the bytes that are in it. -/
theorem LocalStore.readRecord_eq_unframe {s : LocalStore} {l : Location} {bytes : Bytes}
    (h : s.disk.contentAt l = .ok bytes) (key : String) :
    s.readRecord l key = (Record.unframe key s.verify bytes).map some := by
  rw [readRecord, h, Record.unframe]
  simp only
  cases Record.decode? s.verify bytes <;> rfl

end Goalbase

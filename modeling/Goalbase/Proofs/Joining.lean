import Goalbase.Proofs.Scanning

/-!
# Goalbase.Proofs.Joining

Bytes that are scanned one after the other are scanned together.

`Utf8.Scans` follows a scan step by step. A byte below 128 is a character of its own, so what stands
behind it cannot complete a character before it (`Utf8.next?_append`): bytes that end with such a
byte are scanned apart from what follows them (`Utf8.scan_append`), and whether they do can be seen
by their last character (`Utf8.Scans.endsPlain`).
-/

namespace Goalbase

namespace Utf8

/-! ## Scanning step by step -/

variable {bytes rest : Bytes} {gs gs' : List (Option Char)} {c : Char}

/-- A character takes at least one byte off the front. -/
theorem exists_of_next? (h : next? bytes = some (c, rest)) : ∃ l, l ≠ [] ∧ bytes = l ++ rest := by
  unfold next? at h
  split at h
  case h_1 => cases h
  case h_2 a bytes =>
    split at h
    · cases h; exact ⟨[a], List.cons_ne_nil _ _, rfl⟩
    split at h
    · cases h
    rename_i b bytes
    split at h
    · cases h; exact ⟨[a, b], List.cons_ne_nil _ _, rfl⟩
    split at h
    · cases h
    rename_i d bytes
    split at h
    · cases h; exact ⟨[a, b, d], List.cons_ne_nil _ _, rfl⟩
    split at h
    · cases h
    rename_i e bytes
    split at h
    · cases h; exact ⟨[a, b, d, e], List.cons_ne_nil _ _, rfl⟩
    · cases h

/-- The bytes are scanned as these characters, `none` for each broken byte. -/
inductive Scans : Bytes → List (Option Char) → Prop where
  | nil : Scans [] []
  | char {bytes rest : Bytes} {c : Char} {gs : List (Option Char)}
      (h : next? bytes = some (c, rest)) (hrest : Scans rest gs) : Scans bytes (some c :: gs)
  | broken {a : UInt8} {rest : Bytes} {gs : List (Option Char)} (h : next? (a :: rest) = none)
      (hrest : Scans rest gs) : Scans (a :: rest) (none :: gs)

theorem scans_scanOnto (done : List (Option Char)) {tries : Nat} (h : bytes.length ≤ tries) :
    ∃ gs, scanOnto done tries bytes = done.reverse ++ gs ∧ Scans bytes gs := by
  induction tries generalizing done bytes with
  | zero =>
    rw [List.eq_nil_of_length_eq_zero (Nat.le_zero.1 h)]
    exact ⟨[], (List.append_nil _).symm, .nil⟩
  | succ tries ih =>
    cases bytes with
    | nil => exact ⟨[], (List.append_nil _).symm, .nil⟩
    | cons a rest =>
      rw [List.length_cons] at h
      cases hnext : next? (a :: rest) with
      | none =>
        have hrest : rest.length ≤ tries := by omega
        obtain ⟨gs, hgs, hscans⟩ := ih (none :: done) hrest
        refine ⟨none :: gs, ?_, .broken hnext hscans⟩
        simp only [scanOnto, hnext, hgs, List.reverse_cons, List.append_assoc, List.cons_append,
          List.nil_append]
      | some p =>
        obtain ⟨c, rest'⟩ := p
        obtain ⟨l, hl, hsplit⟩ := exists_of_next? hnext
        have hlength := congrArg List.length hsplit
        rw [List.length_cons, List.length_append] at hlength
        have hpos := List.length_pos_iff.2 hl
        have hrest' : rest'.length ≤ tries := by omega
        obtain ⟨gs, hgs, hscans⟩ := ih (some c :: done) hrest'
        refine ⟨some c :: gs, ?_, .char hnext hscans⟩
        simp only [scanOnto, hnext, hgs, List.reverse_cons, List.append_assoc, List.cons_append,
          List.nil_append]

theorem scans_scan (bytes : Bytes) : Scans bytes (scan bytes) := by
  obtain ⟨gs, hgs, hscans⟩ := scans_scanOnto [] (Nat.le_refl bytes.length)
  rw [scan, hgs]
  exact hscans

theorem Scans.deterministic (h : Scans bytes gs) (h' : Scans bytes gs') : gs = gs' := by
  induction h generalizing gs' with
  | nil =>
    cases h' with
    | nil => rfl
    | char hnext => cases hnext
  | char hnext _ ih =>
    cases h' with
    | nil => cases hnext
    | char hnext' hrest' =>
      rw [hnext] at hnext'
      cases hnext'
      rw [ih hrest']
    | broken hnext' =>
      rw [hnext] at hnext'
      cases hnext'
  | broken hnext _ ih =>
    cases h' with
    | char hnext' =>
      rw [hnext] at hnext'
      cases hnext'
    | broken _ hrest' => rw [ih hrest']

theorem Scans.eq (h : Scans bytes gs) : scan bytes = gs := (scans_scan bytes).deterministic h

/-! ## Where a byte is a character of its own -/

theorem toNat_ofNat {n : Nat} (h : n.isValidChar) : (Char.ofNat n).toNat = n :=
  congrArg Char.toNat (dif_pos h)

theorem le_toNat_ofNat {n : Nat} (h : 0x80 ≤ n) (hn : n < 0xD800 ∨ 0xDFFF < n ∧ n < 0x110000) :
    0x80 ≤ (Char.ofNat n).toNat := by
  rw [toNat_ofNat hn]
  exact h

theorem tail?_bounds {b : UInt8} {y : Nat} (h : tail? b = some y) : 0x80 ≤ b.toNat ∧ y < 64 := by
  simp only [tail?] at h
  split at h
  · rename_i hb
    rw [Option.some.injEq] at h
    omega
  · cases h

theorem tail?_ascii {b : UInt8} (h : b.toNat < 0x80) : tail? b = none := by
  cases hb : tail? b with
  | none => rfl
  | some y => exact absurd h (Nat.not_lt.2 (tail?_bounds hb).1)

theorem le_of_two? {a b : UInt8} (h : two? a b = some c) : 0x80 ≤ c.toNat := by
  simp only [two?] at h
  split at h
  · split at h
    · rename_i y hy
      cases h
      have hy' := tail?_bounds hy
      exact le_toNat_ofNat (by omega) (by omega)
    · cases h
  · cases h

theorem le_of_three? {a b d : UInt8} (h : three? a b d = some c) : 0x80 ≤ c.toNat := by
  simp only [three?] at h
  split at h
  · split at h
    · rename_i y z hy hz
      split at h
      · rename_i hn
        cases h
        have hz' := tail?_bounds hz
        have hy' := tail?_bounds hy
        exact le_toNat_ofNat (by omega) (by omega)
      · cases h
    · cases h
  · cases h

theorem le_of_four? {a b d e : UInt8} (h : four? a b d e = some c) : 0x80 ≤ c.toNat := by
  simp only [four?] at h
  split at h
  · split at h
    · split at h
      · rename_i hn
        cases h
        exact le_toNat_ofNat (by omega) (by omega)
      · cases h
    · cases h
  · cases h

/-- A character of one byte stands for that byte. -/
theorem next?_ascii (h : next? bytes = some (c, rest)) (hc : c.toNat < 0x80) :
    ∃ a : UInt8, a.toNat = c.toNat ∧ bytes = a :: rest := by
  unfold next? at h
  split at h
  case h_1 => cases h
  case h_2 a bytes =>
    split at h
    · rename_i hone
      cases h
      simp only [one?] at hone
      split at hone
      · cases hone
        refine ⟨a, ?_, rfl⟩
        exact (toNat_ofNat (.inl (by omega))).symm
      · cases hone
    split at h
    · cases h
    split at h
    · rename_i htwo
      cases h
      exact absurd (le_of_two? htwo) (by omega)
    split at h
    · cases h
    split at h
    · rename_i hthree
      cases h
      exact absurd (le_of_three? hthree) (by omega)
    split at h
    · cases h
    split at h
    · rename_i hfour
      cases h
      exact absurd (le_of_four? hfour) (by omega)
    · cases h

theorem two?_ascii {a b : UInt8} (h : b.toNat < 0x80) : two? a b = none := by
  simp only [two?, tail?_ascii h, ite_self]

theorem three?_ascii {a b d : UInt8} (h : b.toNat < 0x80 ∨ d.toNat < 0x80) :
    three? a b d = none := by
  rcases h with h | h
  · simp only [three?, tail?_ascii h, ite_self]
  · simp only [three?, tail?_ascii h]
    cases tail? b <;> simp only [ite_self]

theorem four?_ascii {a b d e : UInt8} (h : b.toNat < 0x80 ∨ d.toNat < 0x80) :
    four? a b d e = none := by
  rcases h with h | h
  · simp only [four?, tail?_ascii h, ite_self]
  · simp only [four?, tail?_ascii h]
    cases tail? b <;> simp only [ite_self]

/-- What follows a byte that is a character of its own is not drawn into a character before it. -/
theorem next?_append (hne : bytes ≠ []) (h : ∀ b ∈ bytes.getLast?, b.toNat < 0x80) (rest : Bytes) :
    next? (bytes ++ rest) = (next? bytes).map fun p => (p.1, p.2 ++ rest) := by
  -- A character has at most four bytes; of fewer than that, the plain byte is the last.
  match bytes, hne, h with
  | [a], _, h =>
    have ha : a.toNat < 0x80 := h a rfl
    simp only [List.cons_append, List.nil_append, next?, one?, ha, if_true, Option.map_some]
  | [a, b], _, h =>
    have hb : b.toNat < 0x80 := h b rfl
    simp only [List.cons_append, List.nil_append, next?, two?_ascii hb, three?_ascii (.inl hb),
      four?_ascii (.inl hb)]
    cases one? a with
    | some c => rfl
    | none => rcases rest with _ | ⟨d, _ | ⟨e, rest⟩⟩ <;> rfl
  | [a, b, d], _, h =>
    have hd : d.toNat < 0x80 := h d rfl
    simp only [List.cons_append, List.nil_append, next?, three?_ascii (.inr hd),
      four?_ascii (.inr hd)]
    cases one? a with
    | some c => rfl
    | none =>
      cases two? a b with
      | some c => rfl
      | none => cases rest <;> rfl
  | a :: b :: d :: e :: bytes, _, _ =>
    simp only [List.cons_append, next?]
    cases one? a with
    | some c => rfl
    | none =>
      cases two? a b with
      | some c => rfl
      | none =>
        cases three? a b d with
        | some c => rfl
        | none => cases four? a b d e <;> rfl

/-- The bytes end with one that is a character of its own, if there are any. -/
def EndsPlain (bytes : Bytes) : Prop := ∀ b ∈ bytes.getLast?, b.toNat < 0x80

theorem EndsPlain.tail {l : Bytes} (h : EndsPlain (l ++ rest)) : EndsPlain rest := by
  cases rest with
  | nil => intro b hb; cases hb
  | cons a rest =>
    intro b hb
    refine h b ?_
    rw [List.getLast?_append, Option.mem_def.1 hb]
    rfl

/-- Bytes behind such an end are scanned by themselves. -/
theorem Scans.append {more : Bytes} (h : Scans bytes gs) (hend : EndsPlain bytes)
    (h' : Scans more gs') : Scans (bytes ++ more) (gs ++ gs') := by
  induction h with
  | nil => exact h'
  | @char bytes rest c gs hnext _ ih =>
    obtain ⟨l, hl, rfl⟩ := exists_of_next? hnext
    have happend := next?_append (List.append_ne_nil_of_left_ne_nil hl rest) hend more
    rw [hnext, Option.map_some] at happend
    exact .char happend (ih hend.tail)
  | @broken a rest gs hnext _ ih =>
    have happend := next?_append (List.cons_ne_nil a rest) hend more
    rw [hnext, Option.map_none] at happend
    exact .broken happend (ih (EndsPlain.tail (l := [a]) hend))

theorem scan_append {more : Bytes} (hend : EndsPlain bytes) :
    scan (bytes ++ more) = scan bytes ++ scan more :=
  ((scans_scan bytes).append hend (scans_scan more)).eq

theorem Scans.ne_nil {g : Option Char} (h : Scans bytes (g :: gs)) : bytes ≠ [] := by
  rintro rfl
  cases h with
  | char hnext => cases hnext

theorem EndsPlain.append (h : EndsPlain rest) (hne : rest ≠ []) (l : Bytes) :
    EndsPlain (l ++ rest) := by
  intro b hb
  rw [List.getLast?_append, Option.mem_def, List.getLast?_eq_getLast_of_ne_nil hne] at hb
  exact h b (by rw [List.getLast?_eq_getLast_of_ne_nil hne]; exact hb)

/-- Where the last character has one byte, that byte is the last one. -/
theorem Scans.endsPlain (h : Scans bytes gs) (hlast : gs.getLast? = some (some c))
    (hc : c.toNat < 0x80) : EndsPlain bytes := by
  induction h with
  | nil => cases hlast
  | @char bytes rest d gs hnext hrest ih =>
    cases gs with
    | nil =>
      cases hrest
      cases hlast
      obtain ⟨a, ha, rfl⟩ := next?_ascii hnext hc
      rintro b ⟨⟩
      exact ha ▸ hc
    | cons g gs =>
      obtain ⟨l, -, rfl⟩ := exists_of_next? hnext
      exact (ih hlast).append hrest.ne_nil l
  | @broken a rest gs hnext hrest ih =>
    cases gs with
    | nil => cases hlast
    | cons g gs => exact (ih hlast).append hrest.ne_nil [a]

/-- Every byte is one of the characters, if each of these has one byte. -/
theorem Scans.exists_char (h : Scans bytes gs)
    (hgs : ∀ g ∈ gs, ∃ c, g = some c ∧ c.toNat < 0x80) :
    ∀ b ∈ bytes, ∃ c, some c ∈ gs ∧ c.toNat = b.toNat := by
  induction h with
  | nil =>
    intro b hb
    cases hb
  | @char bytes rest d gs hnext _ ih =>
    obtain ⟨c, hc, hlt⟩ := hgs _ List.mem_cons_self
    cases hc
    obtain ⟨a, ha, rfl⟩ := next?_ascii hnext hlt
    intro b hb
    rcases List.mem_cons.1 hb with rfl | hb
    · exact ⟨d, List.mem_cons_self, ha.symm⟩
    · obtain ⟨c, hc, heq⟩ := ih (fun g hg => hgs g (List.mem_cons_of_mem _ hg)) b hb
      exact ⟨c, List.mem_cons_of_mem _ hc, heq⟩
  | broken =>
    obtain ⟨c, hc, -⟩ := hgs _ List.mem_cons_self
    cases hc

end Utf8

end Goalbase

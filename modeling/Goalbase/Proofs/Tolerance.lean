import Goalbase.Proofs.Joining
import Goalbase.Proofs.Varying

/-!
# Goalbase.Proofs.Tolerance

What is decoded does not depend on incidental text.

A text is decoded by the script that it spells, so neither blanks nor spellings matter
(`Tree.decode?_spells`), and by `Varied.alike` neither the order of members nor unused members do.
An envelope of another version is refused with its version before the goal in it is looked at
(`Tree.ofDocument?_envelope`), and a text that was accepted ends where its script does, so nothing
but blanks may follow it (`Tree.decode?_append`). `Tree.decode?_tolerant` puts the three together.
-/

namespace Goalbase

open Token (Spells)

/-- A version, as it is written. -/
def Number.ofVersion (n : Nat) (h : n < 4294967296) : Number := .int n (by omega) (by omega)

/-- An envelope of version `n` whose goal is readable, whatever it holds: in map form, with any
other members that have readable names, or in list form. -/
inductive IsEnvelope (n : Nat) : Script → Prop where
  | map {ms others : List (Option String × Script)} {g : Script} (h : n < 4294967296)
      (hg : g.value?.isSome)
      (hothers : ∀ m ∈ others, ∃ name, m.1 = some name ∧ name ≠ "format_version" ∧ name ≠ "goal")
      (hms : ms.Perm ((some "format_version", .number (some (.ofVersion n h))) :: (some "goal", g)
        :: others)) : IsEnvelope n (.object ms)
  | list {g : Script} (h : n < 4294967296) (hg : g.value?.isSome) :
      IsEnvelope n (.array [.number (some (.ofVersion n h)), g])

namespace Tree

theorem version?_ofVersion {n : Nat} (h : n < 4294967296) :
    version? (.number (.ofVersion n h)) = some n := by
  have hrange : (0 : Int) ≤ n ∧ (n : Int) < 4294967296 := by omega
  simp only [Number.ofVersion, version?, if_pos hrange, Int.toNat_natCast]

/-- The version decides before the goal is read. -/
theorem ofDocument?_version {d : Document} {v g : Json} {n : Nat}
    (hfields : d.fields? ["format_version", "goal"] = some [some v, some g])
    (hv : version? v = some n) (hn : n ≠ formatVersion) : ofDocument? d = .error (.version n) := by
  simp only [ofDocument?, hfields, hv, if_neg hn]

/-- The fields of an object that holds each of them once, among members of other names. -/
theorem fields?_perm {ms others : List (Option String × Option Json)} {v g : Json}
    (hothers : ∀ m ∈ others, ∃ name, m.1 = some name ∧ name ≠ "format_version" ∧ name ≠ "goal")
    (hms : ms.Perm ((some "format_version", some v) :: (some "goal", some g) :: others)) :
    Document.fields? ["format_version", "goal"] (.members ms) = some [some v, some g] := by
  have hversion : Document.slot? "format_version" ms = some (some v) := by
    refine Document.slot?_eq_some hms fun m hm => ?_
    rcases List.mem_cons.1 hm with rfl | hm
    · exact fun he => absurd (Option.some.inj he) (by decide)
    · obtain ⟨name, hname, hne, -⟩ := hothers m hm
      exact fun he => hne (Option.some.inj (hname.symm.trans he))
  have hgoal : Document.slot? "goal" ms = some (some g) := by
    refine Document.slot?_eq_some (hms.trans (.swap _ _ _)) fun m hm => ?_
    rcases List.mem_cons.1 hm with rfl | hm
    · exact fun he => absurd (Option.some.inj he) (by decide)
    · obtain ⟨name, hname, -, hne⟩ := hothers m hm
      exact fun he => hne (Option.some.inj (hname.symm.trans he))
  have hkeys : ms.all (fun m => m.1.isSome) = true := by
    rw [hms.all_eq, List.all_cons, List.all_cons]
    refine List.all_eq_true.2 fun m hm => ?_
    obtain ⟨name, hname, -⟩ := hothers m hm
    rw [hname]
    rfl
  rw [Document.fields?_members, if_pos hkeys, List.map_cons, List.map_cons, List.map_nil, hversion,
    hgoal]
  rfl

theorem ofDocument?_envelope {n : Nat} {w : Script} (hw : IsEnvelope n w) (hn : n ≠ formatVersion) :
    ofDocument? w.document = .error (.version n) := by
  cases hw with
  | @map ms others g h hg hothers hms =>
    obtain ⟨j, hj⟩ := Option.isSome_iff_exists.1 hg
    have hperm := hms.map fun m => (m.1, m.2.value?)
    rw [List.map_cons, List.map_cons, hj] at hperm
    refine ofDocument?_version (fields?_perm (fun m hm => ?_) hperm) (version?_ofVersion h) hn
    obtain ⟨m, hmem, rfl⟩ := List.mem_map.1 hm
    exact hothers m hmem
  | @list g h hg =>
    obtain ⟨j, hj⟩ := Option.isSome_iff_exists.1 hg
    refine ofDocument?_version (g := j) ?_ (version?_ofVersion h) hn
    simp only [Script.document, List.map_cons, List.map_nil, hj]
    rfl

/-! ## Texts -/

variable {bytes rest : Bytes} {t : Tree} {w : Script}

theorem decode?_spells (h : Spells w.tokens (Utf8.scan bytes)) :
    decode? bytes = ofDocument? w.document := by
  rw [decode?, Document.ofBytes?, Script.ofGlyphs?_eq h]

theorem exists_spells (h : decode? bytes = .ok t) :
    ∃ w : Script, Spells w.tokens (Utf8.scan bytes) := by
  simp only [decode?] at h
  split at h
  · rename_i d hd
    obtain ⟨w, hw, -⟩ := Script.exists_of_ofGlyphs? hd
    exact ⟨w, hw⟩
  · cases h

/-- A stored tree is not a single token. -/
theorem getLast?_of_ofDocument? (h : ofDocument? w.document = .ok t) :
    w.tokens.getLast? = some .closeBracket ∨ w.tokens.getLast? = some .closeBrace := by
  cases w with
  | array ws => exact .inl (Script.getLast?_array ws)
  | object ms => exact .inr (Script.getLast?_object ms)
  | _ => cases h

theorem blanks_of_spells (h : Spells [] (Utf8.scan rest)) :
    ∀ b ∈ rest, b.toNat ∈ [0x20, 0x0A, 0x09, 0x0D] := by
  have hplain : ∀ g ∈ Utf8.scan rest, ∃ c, g = some c ∧ c.toNat < 0x80 := by
    intro g hg
    obtain ⟨c, rfl, hc⟩ := h.blanks g hg
    exact ⟨c, rfl, Token.toNat_lt_of_isBlank hc⟩
  intro b hb
  obtain ⟨c, hc, heq⟩ := (Utf8.scans_scan rest).exists_char hplain b hb
  obtain ⟨d, he, hd⟩ := h.blanks _ hc
  cases he
  rw [← heq]
  exact Token.toNat_of_isBlank hd

/-- Nothing but blanks may follow a text that was accepted. -/
theorem decode?_append (h : decode? bytes = .ok t)
    (hrest : ∃ b ∈ rest, b.toNat ∉ [0x20, 0x0A, 0x09, 0x0D]) :
    ∃ reason, decode? (bytes ++ rest) = .error (.decode reason) := by
  obtain ⟨w, hw⟩ := exists_spells h
  have hlast := getLast?_of_ofDocument? ((decode?_spells hw).symm.trans h)
  have hends : Utf8.EndsPlain bytes := by
    obtain ⟨c, hc, hlt⟩ := hw.getLast? hlast
    exact (Utf8.scans_scan bytes).endsPlain hc hlt
  have hnumber : w.tokens.getLast?.any Token.isNumber = false := by
    rcases hlast with hlast | hlast <;> rw [hlast] <;> rfl
  have hnone : Document.ofBytes? (bytes ++ rest) = none := by
    rw [Document.ofBytes?, Utf8.scan_append hends, Document.ofGlyphs?]
    split
    · rename_i us hus
      obtain ⟨ts, rfl, hts⟩ := hw.exists_append w.separated_tokens hnumber hus
      cases hd : Document.ofTokens? (w.tokens ++ ts) with
      | none => rfl
      | some d =>
        -- What follows has no tokens, so it consists of blanks.
        rw [Script.eq_nil_of_ofTokens? hd] at hts
        obtain ⟨b, hb, hnot⟩ := hrest
        exact absurd (blanks_of_spells hts b hb) hnot
    · rfl
  exact ⟨_, by rw [decode?, hnone]⟩

theorem spells_utf8 {s : String} (h : Token.lex? (s.toList.map some) = some w.tokens) :
    Spells w.tokens (Utf8.scan (utf8 s)) := by
  rw [utf8, Utf8.scan_encode]
  exact Token.spells_of_lex? h

/-- A stored constraint. -/
def plainText : String :=
  "\x7b\"format_version\":1,\"goal\":\x7b\"type\":\"constraint\","
    ++ "\"name\":\"even\",\"parameters\":[]\x7d\x7d"

/-- The same constraint with its members turned round, a member `goal` in it, a member of the
envelope that cannot be read, and blanks. -/
def variedText : String :=
  "\x7b \"goal\" : \x7b\"parameters\":[],\"goal\":null,\"name\":\"even\","
    ++ "\"type\":\"constraint\"\x7d ,\n \"x\":1e999, \"format_version\":1 \x7d\n"

end Tree

end Goalbase

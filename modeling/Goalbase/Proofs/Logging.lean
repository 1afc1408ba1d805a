import Goalbase.Log
import Goalbase.Proofs.Parsing

/-!
# Goalbase.Proofs.Logging

Log lines say what was logged and nothing else.

The line of an entry is the text of one JSON object with a newline behind it (`Entry.line_eq`), and
whatever the entry holds, the object is read back with the same members (`Entry.ofText?_line`). No
newline stands inside the object, for every control character is escaped
(`Token.newline_not_mem_quote`). With distinct keys the fields are in one order only, so the order
in which they were given makes no difference (`Entry.sortedFields_perm`).
-/

namespace Goalbase

namespace Token

/-- A blank may follow a text that spells tokens. -/
theorem Spells.append_blank {ts : List Token} {gs : List Glyph} (h : Spells ts gs) {c : Char}
    (hc : IsBlank c) : Spells ts (gs ++ [some c]) := by
  induction h with
  | nil => exact .blank hc .nil
  | blank hc' _ ih => exact .blank hc' ih
  | token ht _ ih =>
    rw [List.append_assoc]
    exact .token ht ih

theorem hexChar_ne_newline (n : Nat) : hexChar n ≠ '\n' := by
  have hall : ∀ m < 16, Nat.digitChar m ≠ '\n' := by decide
  exact hall (n % 16) (Nat.mod_lt n (by decide))

theorem newline_not_mem_quoteChar (c : Char) : '\n' ∉ quoteChar c := by
  by_cases hshort : c ∈ ['"', '\\', '\x08', '\t', '\n', '\x0c', '\r']
  · simp only [List.mem_cons, List.not_mem_nil, or_false] at hshort
    rcases hshort with rfl | rfl | rfl | rfl | rfl | rfl | rfl <;> decide
  simp only [List.mem_cons, List.not_mem_nil, or_false, not_or] at hshort
  obtain ⟨hquote, hslash, hb, ht, hn, hf, hr⟩ := hshort
  simp only [quoteChar, hquote, hslash, hb, ht, hn, hf, hr, if_false]
  split
  · simp only [List.mem_cons, List.not_mem_nil, or_false, not_or]
    exact ⟨by decide, by decide, by decide, by decide, (hexChar_ne_newline _).symm,
      (hexChar_ne_newline _).symm⟩
  · rw [List.mem_singleton]
    exact Ne.symm hn

theorem newline_not_mem_quote (s : String) : '\n' ∉ quote s := by
  have hchars : '\n' ∉ s.toList.flatMap quoteChar := by
    rw [List.mem_flatMap]
    rintro ⟨c, -, hc⟩
    exact newline_not_mem_quoteChar c hc
  simp only [quote, List.mem_cons, List.mem_append, List.not_mem_nil, or_false, not_or]
  exact ⟨by decide, hchars, by decide⟩

end Token

/-- The text of a value is read the same with a newline behind it. -/
theorem Json.ofText?_text_newline (j : Json) : ofText? (j.text ++ "\n") = j.reread? := by
  have hglyphs : (j.text ++ "\n").toList.map some = j.chars.map some ++ [some '\n'] := by
    rw [String.toList_append, text, String.toList_ofList, List.map_append]
    rfl
  have hspells := j.spells_chars.append_blank (c := '\n') (.inr (.inl rfl))
  rw [ofText?, hglyphs, Script.ofGlyphs?_eq hspells]
  exact (Script.value?_document _).trans j.value?_script

namespace Entry

/-- The members of a line: the text of every part of the entry. -/
def members (e : Entry) (time : String) : List (String × String) :=
  ("event", e.event) :: ("severity", e.severity.name) :: ("ts", time) :: e.sortedFields

/-- Members that are texts. -/
def texts (ms : List (String × String)) : List (String × Json) :=
  ms.map fun m => (m.1, .string m.2)

/-! ## The line as the text of an object -/

theorem membersChars_cons (m : String × String) (ms : List (String × String)) :
    membersChars (m :: ms)
      = memberChars m.1 m.2 ++ ms.flatMap fun m => ',' :: memberChars m.1 m.2 := by
  induction ms generalizing m with
  | nil => rw [membersChars, List.flatMap_nil, List.append_nil]
  | cons m' ms ih =>
    rw [membersChars, ih, List.flatMap_cons, List.cons_append]
    exact List.cons_ne_nil m' ms

theorem spell_membersOnto (ms : List (String × String)) (rest : List Token) :
    Token.spell (Json.membersOnto rest (texts ms))
      = (ms.flatMap fun m => ',' :: memberChars m.1 m.2) ++ Token.spell rest := by
  induction ms with
  | nil => rfl
  | cons m ms ih =>
    rw [texts, List.map_cons, Json.membersOnto, Json.tokensOnto]
    simp only [Token.spell_cons, Token.chars]
    rw [← texts, ih]
    simp [memberChars]

theorem chars_texts (m : String × String) (ms : List (String × String)) :
    (Json.object (texts (m :: ms))).chars = '\x7b' :: (membersChars (m :: ms) ++ ['\x7d']) := by
  rw [Json.chars, Json.tokens, texts, List.map_cons, Json.tokensOnto, Json.tokensOnto, ← texts]
  simp only [Token.spell_cons, spell_membersOnto, membersChars_cons, Token.chars]
  simp [memberChars, Token.spell]

/-- The line is the text of an object, with a newline behind it. -/
theorem line_eq (e : Entry) (time : String) :
    e.line time = (Json.object (texts (e.members time))).text ++ "\n" := by
  rw [members, Json.text, chars_texts, line, ← String.toList_inj]
  simp

theorem newline_not_mem_membersChars : ∀ ms : List (String × String), '\n' ∉ membersChars ms
  | [] => List.not_mem_nil
  | m :: ms => by
    have hmember : ∀ m : String × String, '\n' ∉ memberChars m.1 m.2 := by
      intro m
      simp only [memberChars, List.mem_append, List.mem_cons, not_or]
      exact ⟨Token.newline_not_mem_quote m.1, by decide, Token.newline_not_mem_quote m.2⟩
    rw [membersChars_cons, List.mem_append, List.mem_flatMap, not_or]
    refine ⟨hmember m, ?_⟩
    rintro ⟨m', -, hm'⟩
    rcases List.mem_cons.1 hm' with hcomma | hm'
    · cases hcomma
    · exact hmember m' hm'

/-- The text of the members is one line. -/
theorem newline_not_mem_text (m : String × String) (ms : List (String × String)) :
    '\n' ∉ (Json.object (texts (m :: ms))).text.toList := by
  rw [Json.text, String.toList_ofList, chars_texts]
  simp only [List.mem_cons, List.mem_append, List.not_mem_nil, or_false, not_or]
  exact ⟨by decide, newline_not_mem_membersChars _, by decide⟩

/-- Texts are read back unchanged. -/
theorem rereadMembers?_texts (ms : List (String × String)) :
    Json.rereadMembers? (texts ms) = some (texts ms) := by
  induction ms with
  | nil => rfl
  | cons m ms ih => rw [texts, List.map_cons, ← texts, Json.rereadMembers?, Json.reread?, ih]

/-- The line is read as the object of its members. -/
theorem ofText?_line (e : Entry) (time : String) :
    Json.ofText? (e.line time) = some (.object (texts (e.members time))) := by
  rw [line_eq, Json.ofText?_text_newline, Json.reread?, rereadMembers?_texts]
  rfl

/-! ## The order of the fields -/

variable {e : Entry} {fields : List (String × String)}

theorem perm_sortedFields (e : Entry) : e.sortedFields.Perm e.fields := List.mergeSort_perm _ _

theorem members_perm (e : Entry) (time : String) : (texts (e.members time)).Perm
    (texts (("event", e.event) :: ("severity", e.severity.name) :: ("ts", time) :: e.fields)) :=
  ((((perm_sortedFields e).cons _).cons _).cons _).map _

/-- The fields stand in ascending order of their keys. -/
theorem sortedFields_pairwise (e : Entry) : e.sortedFields.Pairwise fun a b => a.1 ≤ b.1 := by
  have hsorted : e.sortedFields.Pairwise fun a b => decide (a.1 ≤ b.1) = true := by
    refine List.pairwise_mergeSort (fun a b c hab hbc => ?_) (fun a b => ?_) e.fields
    · exact decide_eq_true (Std.le_trans (of_decide_eq_true hab) (of_decide_eq_true hbc))
    · rw [Bool.or_eq_true, decide_eq_true_eq, decide_eq_true_eq]
      exact Std.le_total
  exact hsorted.imp of_decide_eq_true

/-- With distinct keys the sorted fields do not depend on the order in which they were given. -/
theorem sortedFields_perm (h : (e.fields.map Prod.fst).Nodup) (hperm : fields.Perm e.fields) :
    ({ e with fields := fields } : Entry).sortedFields = e.sortedFields := by
  have hkeys : ∀ {a b : String × String}, a ∈ e.fields → b ∈ e.fields → a.1 = b.1 → a = b :=
    fun ha hb => List.inj_on_of_nodup_map h ha hb
  have hsame : ({ e with fields := fields } : Entry).sortedFields.Perm e.sortedFields :=
    ((perm_sortedFields _).trans hperm).trans (perm_sortedFields e).symm
  refine hsame.eq_of_pairwise (fun a b ha hb hab hba => ?_) (sortedFields_pairwise _)
    (sortedFields_pairwise e)
  have ha' := (perm_sortedFields e).mem_iff.1 (hsame.mem_iff.1 ha)
  exact hkeys ha' ((perm_sortedFields e).mem_iff.1 hb) (Std.le_antisymm hab hba)

/-- Whatever texts an entry holds, its line is one line that ends with its only newline, and it is
read as one JSON object with exactly the members of the entry, each with exactly the text given. The
fields may be given in any order. -/
theorem line_faithful (e : Entry) (time : String)
    (h : ("event" :: "severity" :: "ts" :: e.fields.map Prod.fst).Nodup) :
    (∃ body : String, e.line time = body ++ "\n" ∧ '\n' ∉ body.toList)
      ∧ (∃ members, Json.ofText? (e.line time) = some (.object members)
        ∧ (members.map Prod.fst).Nodup
        ∧ members.Perm (("event", .string e.event) :: ("severity", .string e.severity.name)
          :: ("ts", .string time) :: e.fields.map fun m => (m.1, .string m.2)))
      ∧ ∀ fields, fields.Perm e.fields →
        ({ e with fields := fields } : Entry).line time = e.line time := by
  have hfields : (e.fields.map Prod.fst).Nodup :=
    (List.nodup_cons.1 (List.nodup_cons.1 (List.nodup_cons.1 h).2).2).2
  refine ⟨⟨_, line_eq e time, newline_not_mem_text _ _⟩,
    ⟨_, ofText?_line e time, ?_, members_perm e time⟩, fun fields hperm => ?_⟩
  · refine ((members_perm e time).map Prod.fst).nodup_iff.2 ?_
    rw [texts, List.map_map]
    exact h
  · rw [line_eq, line_eq, members, members, sortedFields_perm hfields hperm]

/-- A field with a quote, a newline, a backslash and a control character in its key and in its
text. -/
def hostile : Entry :=
  ⟨.error, "QUERY_REJECTED", [("z\"\n", "\"\n\\\x01é"), ("error", "\x7d\n\x7b\"event\":\"x\"\x7d")]⟩

theorem line_faithful_hostile :
    ("event" :: "severity" :: "ts" :: hostile.fields.map Prod.fst).Nodup
      ∧ (∃ body : String, hostile.line "t\n" = body ++ "\n" ∧ '\n' ∉ body.toList)
      ∧ (∃ members, Json.ofText? (hostile.line "t\n") = some (.object members)
        ∧ ("z\"\n", .string "\"\n\\\x01é") ∈ members ∧ members.length = 5)
      ∧ ({ hostile with fields := hostile.fields.reverse } : Entry).line "t\n"
        = hostile.line "t\n" := by
  have hkeys : ("event" :: "severity" :: "ts" :: hostile.fields.map Prod.fst).Nodup := by decide
  obtain ⟨hline, ⟨members, hread, -, hperm⟩, horder⟩ := line_faithful hostile "t\n" hkeys
  refine ⟨hkeys, hline, ⟨members, hread, hperm.mem_iff.2 ?_, hperm.length_eq⟩,
    horder _ (List.reverse_perm _)⟩
  exact .tail _ (.tail _ (.tail _ (.head _)))

end Entry

end Goalbase

import Goalbase.Proofs.Lexing

/-!
# Goalbase.Proofs.Spacing

Blanks between tokens count for nothing.

`Token.Spells ts gs` says that the text `gs` is made of the tokens `ts`, each in some spelling, with
blanks anywhere between them. `Token.next?_local` is why this is all there is to a text: a token is
the same whatever follows it, only a number must be set apart. So what is cut into tokens spells
them (`Token.spells_of_lex?`), and tokens whose numbers are set apart are what every text that
spells them is cut into (`Token.Spells.lex?_eq`), also in front of something else
(`Token.Spells.exists_append`).
-/

namespace Goalbase

namespace Token

variable {gs gs' r : List Glyph} {ts : List Token} {t : Token}

/-! ## What the next token can be -/

theorem quoted?_escape {e c : Char} (h : escape? e = some c) (done : List Piece)
    (rest : List Glyph) :
    quoted? done (some '\\' :: some e :: rest) = quoted? (.char c :: done) rest := by
  rw [quoted?, h]
  intro _ _ _ _ _ _ he
  rw [he] at h
  cases h

/-- A quoted string is read the same whatever follows its closing quote. -/
theorem quoted?_local {done ps : List Piece} (h : quoted? done gs = some (ps, r)) :
    ∃ l, gs = l ++ r ∧ ∀ rest, quoted? done (l ++ rest) = some (ps, rest) := by
  fun_induction quoted? done gs with
  | case1 => cases h
  | case2 done rest =>
    cases h
    exact ⟨[some '"'], rfl, fun rest => rfl⟩
  | case3 done a b c d rest u hu ih =>
    obtain ⟨l, rfl, hread⟩ := ih h
    refine ⟨some '\\' :: some 'u' :: a :: b :: c :: d :: l, rfl, fun rest => ?_⟩
    simp only [List.cons_append, quoted?, hu]
    exact hread rest
  | case4 => cases h
  | case5 done e rest hne c hc ih =>
    obtain ⟨l, rfl, hread⟩ := ih h
    refine ⟨some '\\' :: some e :: l, rfl, fun rest => ?_⟩
    rw [List.cons_append, List.cons_append, quoted?_escape hc]
    exact hread rest
  | case6 => cases h
  | case7 => cases h
  | case8 => cases h
  | case9 done c rest hquote _ _ hslash hc ih =>
    obtain ⟨l, rfl, hread⟩ := ih h
    refine ⟨some c :: l, rfl, fun rest => ?_⟩
    rw [List.cons_append, quoted?, if_neg hc]
    · exact hread rest
    · exact hquote
    · exact fun _ _ _ _ _ _ => hslash
    · exact fun _ _ _ => hslash
    · exact hslash
  | case10 done rest ih =>
    obtain ⟨l, rfl, hread⟩ := ih h
    exact ⟨none :: l, rfl, fun rest => hread rest⟩

/-- The token has one spelling only. -/
def IsFixed : Token → Prop
  | .number _ => False
  | .string _ => False
  | _ => True

theorem next?_fixed (ht : t.IsFixed) (rest : List Glyph) :
    next? (t.chars.map some ++ rest) = some (some t, rest) := by
  cases t with
  | number n => cases ht
  | string s => cases ht
  | bool b => cases b <;> rfl
  | _ => rfl

/-- What a text starts with: a blank, a token with one spelling, a string or a number. -/
inductive Starts : Option Token → List Glyph → List Glyph → Prop where
  | blank {c : Char} (hc : IsBlank c) (r : List Glyph) : Starts none (some c :: r) r
  | fixed {t : Token} (ht : t.IsFixed) (r : List Glyph) :
      Starts (some t) (t.chars.map some ++ r) r
  | quoted {gs r : List Glyph} {ps : List Piece} (h : quoted? [] gs = some (ps, r)) :
      Starts (some (.string ((text? [] ps).map String.ofList))) (some '"' :: gs) r
  | numeral {gs r : List Glyph} {n : Numeral} (h : numeral? gs = some (n, r)) :
      Starts (some (.number n.value?)) gs r

theorem starts_of_next? {a : Option Token} (h : next? gs = some (a, r)) : Starts a gs r := by
  unfold next? at h
  split at h
  case h_1 => cases h
  case h_2 => cases h; exact .blank (.inl rfl) r
  case h_3 => cases h; exact .blank (.inr (.inl rfl)) r
  case h_4 => cases h; exact .blank (.inr (.inr (.inl rfl))) r
  case h_5 => cases h; exact .blank (.inr (.inr (.inr rfl))) r
  case h_6 => cases h; exact .fixed (t := .openBracket) trivial r
  case h_7 => cases h; exact .fixed (t := .closeBracket) trivial r
  case h_8 => cases h; exact .fixed (t := .openBrace) trivial r
  case h_9 => cases h; exact .fixed (t := .closeBrace) trivial r
  case h_10 => cases h; exact .fixed (t := .comma) trivial r
  case h_11 => cases h; exact .fixed (t := .colon) trivial r
  case h_12 => cases h; exact .fixed (t := .null) trivial r
  case h_13 => cases h; exact .fixed (t := .bool true) trivial r
  case h_14 => cases h; exact .fixed (t := .bool false) trivial r
  case h_15 =>
    split at h
    · rename_i hquoted
      cases h
      exact .quoted hquoted
    · cases h
  case h_16 =>
    split at h
    · rename_i hnumeral
      cases h
      exact .numeral hnumeral
    · cases h

theorem isNumeral_of_digit? {g : Glyph} {d : Nat} (h : digit? g = some d) :
    ∃ c, g = some c ∧ IsNumeral c := by
  cases g with
  | none => cases h
  | some c =>
    simp only [digit?] at h
    split at h
    · rename_i hc
      refine ⟨c, rfl, .inl ?_⟩
      simp only [Char.isDigit, Bool.and_eq_true, decide_eq_true_eq]
      exact hc
    · cases h

theorem exists_isNumeral_someDigits? {ds : List Nat} (h : someDigits? gs = some (ds, r)) :
    ∃ c l, gs = some c :: l ∧ IsNumeral c := by
  cases gs with
  | nil => cases h
  | cons g gs =>
    cases hg : digit? g with
    | none =>
      simp only [someDigits?, digits, hg, List.reverse_nil] at h
      cases h
    | some d =>
      obtain ⟨c, rfl, hc⟩ := isNumeral_of_digit? hg
      exact ⟨c, gs, rfl, hc⟩

theorem exists_isNumeral {n : Numeral} (h : numeral? gs = some (n, r)) :
    ∃ c l, gs = some c :: l ∧ IsNumeral c := by
  unfold numeral? at h
  split at h
  · rename_i rest
    exact ⟨'-', rest, rfl, .inr (by decide)⟩
  · simp only [unsigned?] at h
    split at h
    · cases h
    · rename_i hwhole
      unfold whole? at hwhole
      split at hwhole
      · rename_i rest _
        exact ⟨'0', rest, rfl, .inl rfl⟩
      · exact exists_isNumeral_someDigits? hwhole

/-- The next token is the same whatever follows it, but for a number, which must still end where it
did. -/
theorem next?_local {a : Option Token} (h : next? gs = some (a, r)) :
    ∃ l, gs = l ++ r ∧ ∀ rest, (∀ t ∈ a, t.isNumber = true → Replaces rest r) →
      next? (l ++ rest) = some (a, rest) := by
  cases starts_of_next? h with
  | @blank c hc =>
    refine ⟨[some c], rfl, fun rest _ => ?_⟩
    rcases hc with rfl | rfl | rfl | rfl <;> rfl
  | @fixed t ht => exact ⟨t.chars.map some, rfl, fun rest _ => next?_fixed ht rest⟩
  | quoted hquoted =>
    obtain ⟨l, rfl, hread⟩ := quoted?_local hquoted
    refine ⟨some '"' :: l, rfl, fun rest _ => ?_⟩
    simp only [List.cons_append, next?, hread]
  | @numeral _ _ n hnumeral =>
    obtain ⟨l, rfl, hread⟩ := numeral?_local _ _ _ hnumeral
    -- Read alone, the numeral shows its first character, which leads there again.
    have halone := hread [] (.inl trivial)
    rw [List.append_nil] at halone
    obtain ⟨c, l, rfl, hc⟩ := exists_isNumeral halone
    refine ⟨some c :: l, rfl, fun rest hrest => ?_⟩
    rw [List.cons_append, next?_isNumeral hc, ← List.cons_append, hread rest (hrest _ rfl rfl)]
    rfl

/-! ## Tokens and blanks -/

/-- The text is made of the tokens, each in a spelling of its own, with blanks anywhere between
them. -/
inductive Spells : List Token → List Glyph → Prop where
  | nil : Spells [] []
  | blank {ts : List Token} {gs : List Glyph} {c : Char} (hc : IsBlank c) (h : Spells ts gs) :
      Spells ts (some c :: gs)
  | token {ts : List Token} {gs l : List Glyph} {t : Token} (ht : next? l = some (some t, []))
      (h : Spells ts gs) : Spells (t :: ts) (l ++ gs)

theorem spells_of_lexOnto {done us : List Token} {tries : Nat}
    (h : lexOnto done tries gs = some us) : ∃ ts, us = done.reverse ++ ts ∧ Spells ts gs := by
  induction tries generalizing done gs with
  | zero =>
    cases gs with
    | nil => cases h; exact ⟨[], (List.append_nil _).symm, .nil⟩
    | cons g gs => cases h
  | succ tries ih =>
    cases gs with
    | nil => cases h; exact ⟨[], (List.append_nil _).symm, .nil⟩
    | cons g gs =>
      simp only [lexOnto] at h
      split at h
      · cases h
      · rename_i r hnext
        obtain ⟨ts, hus, hspells⟩ := ih h
        cases starts_of_next? hnext with
        | blank hc => exact ⟨ts, hus, .blank hc hspells⟩
      · rename_i t r hnext
        obtain ⟨ts, hus, hspells⟩ := ih h
        obtain ⟨l, hl, hread⟩ := next?_local hnext
        have halone := hread [] fun _ _ _ => .inl trivial
        rw [List.append_nil] at halone
        rw [List.reverse_cons, List.append_assoc] at hus
        exact ⟨t :: ts, hus, hl ▸ .token halone hspells⟩

/-- What is cut into tokens spells them. -/
theorem spells_of_lex? (h : lex? gs = some ts) : Spells ts gs := by
  obtain ⟨us, rfl, hspells⟩ := spells_of_lexOnto h
  exact hspells

/-- The tokens go on with one that ends a value, if at all. -/
def Ended : List Token → Prop
  | [] => True
  | t :: _ => t = .comma ∨ t = .closeBracket ∨ t = .closeBrace

theorem ended_closeBracket (ts : List Token) : Ended (.closeBracket :: ts) := .inr (.inl rfl)

theorem ended_closeBrace (ts : List Token) : Ended (.closeBrace :: ts) := .inr (.inr rfl)

/-- Every number is set apart from the token behind it. -/
inductive Separated : List Token → Prop where
  | nil : Separated []
  | cons {t : Token} {ts : List Token} (ht : t.isNumber = true → Ended ts) (h : Separated ts) :
      Separated (t :: ts)

/-- A token that is no number may stand in front of any other. -/
theorem Separated.plain (ht : t.isNumber = false) (h : Separated ts) : Separated (t :: ts) :=
  .cons (fun hn => by rw [ht] at hn; cases hn) h

theorem Spells.delimited (h : Spells ts gs) (hts : Ended ts) (hend : ts = [] → Delimited gs') :
    Delimited (gs ++ gs') := by
  cases h with
  | nil => exact hend rfl
  | @blank _ _ c hc => exact ⟨c, rfl, .inr (.inr (.inr hc))⟩
  | token ht =>
    rcases hts with rfl | rfl | rfl
    · cases starts_of_next? ht with
      | fixed => exact ⟨',', rfl, by decide⟩
    · cases starts_of_next? ht with
      | fixed => exact ⟨']', rfl, by decide⟩
    · cases starts_of_next? ht with
      | fixed => exact ⟨'\x7d', rfl, by decide⟩

theorem next?_append {l : List Glyph} (h : next? l = some (some t, [])) {rest : List Glyph}
    (hrest : t.isNumber = true → Delimited rest) : next? (l ++ rest) = some (some t, rest) := by
  obtain ⟨l', rfl, hread⟩ := next?_local h
  rw [List.append_nil]
  refine hread rest fun t' ht' hn => .inl (hrest ?_)
  cases ht'
  exact hn

/-- The tokens are cut off the front of a text that spells them, if the last one is set apart from
what follows. -/
theorem Spells.lexOnto_append (h : Spells ts gs) (hts : Separated ts) (gs' : List Glyph)
    (hend : ts.getLast?.any isNumber = true → Delimited gs') (done : List Token) {tries : Nat}
    (hle : (gs ++ gs').length ≤ tries) :
    ∃ tries', lexOnto done tries (gs ++ gs') = lexOnto (ts.reverse ++ done) tries' gs' := by
  -- How many tries are left depends on the blanks and spellings, so it is not said.
  induction h generalizing done tries with
  | nil => exact ⟨tries, rfl⟩
  | @blank ts gs c hc _ ih =>
    rw [List.cons_append, List.length_cons] at hle
    obtain ⟨tries, rfl⟩ : ∃ n, tries = n + 1 := ⟨tries - 1, by omega⟩
    obtain ⟨tries', heq⟩ := ih hts hend done (Nat.le_of_succ_le_succ hle)
    have hnext : next? (some c :: (gs ++ gs')) = some (none, gs ++ gs') := by
      rcases hc with rfl | rfl | rfl | rfl <;> rfl
    refine ⟨tries', ?_⟩
    rw [List.cons_append, lexOnto, hnext]
    exact heq
  | @token ts gs l t ht hspells ih =>
    obtain ⟨hsep, hts⟩ : (t.isNumber = true → Ended ts) ∧ Separated ts := by
      cases hts with
      | cons hsep hts => exact ⟨hsep, hts⟩
    have hend' : ts.getLast?.any isNumber = true → Delimited gs' := by
      intro hany
      cases ts with
      | nil => cases hany
      | cons u us => exact hend hany
    have hnext : next? (l ++ (gs ++ gs')) = some (some t, gs ++ gs') := by
      refine next?_append ht fun hn => hspells.delimited (hsep hn) fun hnil => hend ?_
      rw [hnil]
      exact hn
    cases l with
    | nil => cases ht
    | cons g l =>
      rw [List.append_assoc, List.cons_append, List.length_cons, List.length_append] at hle
      obtain ⟨tries, rfl⟩ : ∃ n, tries = n + 1 := ⟨tries - 1, by omega⟩
      have hle' : (gs ++ gs').length ≤ tries := by omega
      obtain ⟨tries', heq⟩ := ih hts hend' (t :: done) hle'
      refine ⟨tries', ?_⟩
      rw [List.append_assoc, List.cons_append, lexOnto, ← List.cons_append, hnext,
        List.reverse_cons, List.append_assoc]
      exact heq

/-- Blanks and spellings do not matter to what a text is cut into. -/
theorem Spells.lex?_eq (h : Spells ts gs) (hts : Separated ts) : lex? gs = some ts := by
  obtain ⟨tries, heq⟩ := h.lexOnto_append hts [] (fun _ => trivial) [] (Nat.le_refl _)
  rw [List.append_nil, List.append_nil] at heq
  rw [lex?, heq]
  cases tries <;> simp [lexOnto]

/-- What follows a text is cut into tokens of its own. -/
theorem Spells.exists_append (h : Spells ts gs) (hts : Separated ts)
    (hend : ts.getLast?.any isNumber = false) {us : List Token}
    (hus : lex? (gs ++ gs') = some us) : ∃ ts', us = ts ++ ts' ∧ Spells ts' gs' := by
  obtain ⟨tries, heq⟩ := h.lexOnto_append hts gs' (fun hany => by rw [hend] at hany; cases hany) []
    (Nat.le_refl _)
  rw [lex?, heq, List.append_nil] at hus
  obtain ⟨ts', rfl, hspells⟩ := spells_of_lexOnto hus
  exact ⟨ts', by rw [List.reverse_reverse], hspells⟩

/-- Without tokens there are only blanks. -/
theorem Spells.blanks (h : Spells [] gs) : ∀ g ∈ gs, ∃ c, g = some c ∧ IsBlank c := by
  generalize hts : ([] : List Token) = ts at h
  induction h with
  | nil =>
    intro g hg
    cases hg
  | @blank ts gs c hc _ ih =>
    intro g hg
    rcases List.mem_cons.1 hg with rfl | hg
    · exact ⟨c, rfl, hc⟩
    · exact ih hts g hg
  | token => cases hts

theorem toNat_of_isBlank {c : Char} (h : IsBlank c) : c.toNat ∈ [0x20, 0x0A, 0x09, 0x0D] := by
  rcases h with rfl | rfl | rfl | rfl <;> decide

theorem toNat_lt_of_isBlank {c : Char} (h : IsBlank c) : c.toNat < 0x80 := by
  rcases h with rfl | rfl | rfl | rfl <;> decide

/-- A text ends with a character of one byte, if its last token is a bracket or a brace. -/
theorem Spells.getLast? (h : Spells ts gs)
    (hlast : ts.getLast? = some .closeBracket ∨ ts.getLast? = some .closeBrace) :
    ∃ c, gs.getLast? = some (some c) ∧ c.toNat < 0x80 := by
  induction h with
  | nil => rcases hlast with hlast | hlast <;> cases hlast
  | blank hc _ ih =>
    obtain ⟨c, hlast, hlt⟩ := ih hlast
    exact ⟨c, by rw [List.getLast?_cons, hlast]; rfl, hlt⟩
  | @token ts gs l t ht hspells ih =>
    have hor : (l ++ gs).getLast? = gs.getLast?.or l.getLast? := List.getLast?_append
    cases ts with
    | cons u us =>
      obtain ⟨c, hlast, hlt⟩ := ih hlast
      exact ⟨c, by rw [hor, hlast]; rfl, hlt⟩
    | nil =>
      cases hgs : gs.getLast? with
      | some g =>
        obtain ⟨c, rfl, hc⟩ := hspells.blanks g (List.mem_of_getLast? hgs)
        exact ⟨c, by rw [hor, hgs]; rfl, toNat_lt_of_isBlank hc⟩
      | none =>
        rw [hor, hgs]
        rcases hlast with hlast | hlast
        · cases hlast
          cases starts_of_next? ht with
          | fixed => exact ⟨']', rfl, by decide⟩
        · cases hlast
          cases starts_of_next? ht with
          | fixed => exact ⟨'\x7d', rfl, by decide⟩

/-! ## Texts without blanks -/

theorem next?_chars_nil (h : t.Written) : next? (t.chars.map some) = some (some t.reread, []) := by
  have hnext : next? (t.chars.map some ++ []) = _ := next?_chars h fun _ => trivial
  rw [List.append_nil] at hnext
  exact hnext

theorem spell_cons (t : Token) (ts : List Token) : spell (t :: ts) = t.chars ++ spell ts :=
  List.flatMap_cons

/-- The text of a token, in front of what spells the others. -/
theorem Spells.cons {us : List Token} (h : Spells ts ((spell us).map some)) (ht : t.Written) :
    Spells (t.reread :: ts) ((spell (t :: us)).map some) := by
  rw [spell_cons, List.map_append]
  exact .token (next?_chars_nil ht) h

end Token

end Goalbase

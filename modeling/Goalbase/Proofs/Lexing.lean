import Goalbase.Json.Text
import Goalbase.Proofs.Spelling

/-!
# Goalbase.Proofs.Lexing

Tokens are read back from their text.

`Token.next?_chars` says what the text of a token is read as, whatever follows it: the token itself,
except that a number is the one that its text denotes (`Token.reread`); a number must be followed by
a separator.
-/

namespace Goalbase

namespace Token

/-! ## Strings -/

/-- The piece that an escaped character is read as. -/
def pieceOf (c : Char) : Piece :=
  if c.toNat < 0x20 ∧ c ∉ ['\x08', '\t', '\n', '\x0c', '\r'] then .unit c.toNat else .char c

theorem hexDigit?_hexChar (n : Nat) : hexDigit? (hexChar n) = some (n % 16) := by
  have hall : ∀ m < 16, hexDigit? (Nat.digitChar m) = some m := by decide
  exact hall (n % 16) (Nat.mod_lt n (by decide))

/-- The text of an escaped character is read as its piece, whatever follows. -/
theorem quoted?_quoteChar (c : Char) (done : List Piece) (rest : List Glyph) :
    quoted? done ((quoteChar c).map some ++ rest) = quoted? (pieceOf c :: done) rest := by
  by_cases hshort : c ∈ ['"', '\\', '\x08', '\t', '\n', '\x0c', '\r']
  · simp only [List.mem_cons, List.not_mem_nil, or_false] at hshort
    rcases hshort with rfl | rfl | rfl | rfl | rfl | rfl | rfl <;> rfl
  simp only [List.mem_cons, List.not_mem_nil, or_false, not_or] at hshort
  obtain ⟨hquote, hslash, hb, ht, hn, hf, hr⟩ := hshort
  by_cases hc : c.toNat < 0x20
  · have hpiece : pieceOf c = .unit c.toNat := by
      simp [pieceOf, hc, hb, ht, hn, hf, hr]
    have hunit : hexUnit? (some '0') (some '0') (some (hexChar (c.toNat / 16)))
        (some (hexChar c.toNat)) = some c.toNat := by
      have hzero : hexDigit? '0' = some 0 := rfl
      simp only [hexUnit?, hzero, hexDigit?_hexChar, Option.some.injEq]
      omega
    simp only [quoteChar, hquote, hslash, hb, ht, hn, hf, hr, hc, if_true, if_false, List.map_cons,
      List.map_nil, List.cons_append, List.nil_append, quoted?, hunit, hpiece]
  · have hpiece : pieceOf c = .char c := by
      simp [pieceOf, hc]
    simp only [quoteChar, hquote, hslash, hb, ht, hn, hf, hr, hc, if_false, List.map_cons,
      List.map_nil, List.cons_append, List.nil_append, hpiece]
    rw [quoted?]
    · exact if_neg hc
    · exact hquote
    · exact fun _ _ _ _ _ _ he => hslash he
    · exact fun _ _ _ he => hslash he
    · exact hslash

/-- The pieces of quoted text are read, whatever follows the closing quote. -/
theorem quoted?_quote (cs : List Char) (done : List Piece) (rest : List Glyph) :
    quoted? done ((cs.flatMap quoteChar).map some ++ some '"' :: rest)
      = some (done.reverse ++ cs.map pieceOf, rest) := by
  induction cs generalizing done with
  | nil => simp [quoted?]
  | cons c cs ih =>
    rw [List.flatMap_cons, List.map_append, List.append_assoc, quoted?_quoteChar, ih]
    simp

/-- A unit that is half of no surrogate pair is a character of its own. -/
theorem text?_unit {u : Nat} (hu : u < 0xD800) (done : List Char) (rest : List Piece) :
    text? done (.unit u :: rest) = text? (Char.ofNat u :: done) rest := by
  have hhigh : isHigh u = false := by
    simp only [isHigh, Bool.and_eq_false_iff, decide_eq_false_iff_not]
    omega
  have hlow : isLow u = false := by
    simp only [isLow, Bool.and_eq_false_iff, decide_eq_false_iff_not]
    omega
  cases rest with
  | nil => simp only [text?, hhigh, hlow, Bool.or_self, Bool.false_eq_true, if_false]
  | cons p rest =>
    cases p <;> simp only [text?, hhigh, hlow, Bool.or_self, Bool.false_eq_true, if_false]

theorem text?_pieceOf (cs done : List Char) :
    text? done (cs.map pieceOf) = some (done.reverse ++ cs) := by
  induction cs generalizing done with
  | nil => simp [text?]
  | cons c cs ih =>
    have hone : text? done (pieceOf c :: cs.map pieceOf) = text? (c :: done) (cs.map pieceOf) := by
      simp only [pieceOf]
      split
      · rename_i hc
        rw [text?_unit (by omega), Char.ofNat_toNat]
      · rfl
    rw [List.map_cons, hone, ih]
    simp

/-! ## Tokens -/

/-- The token denotes something, so it has a text. -/
def Written : Token → Prop
  | .number none => False
  | .string none => False
  | _ => True

/-- What the text of a token is read as. -/
def reread : Token → Token
  | .number (some n) => .number n.reread?
  | t => t

def isNumber : Token → Bool
  | .number _ => true
  | _ => false

/-- No other token starts with a character of numerals. -/
theorem next?_isNumeral {c : Char} (hc : IsNumeral c) (gs : List Glyph) :
    next? (some c :: gs)
      = (numeral? (some c :: gs)).map fun p => (some (.number p.1.value?), p.2) := by
  have hother : ∀ {d : Char} {rest : List Glyph}, ¬IsNumeral d → some c :: gs = some d :: rest →
      False := by
    intro d rest hd he
    cases he
    exact hd hc
  rw [next?]
  case x_1 =>
    intro he
    cases he
  · cases numeral? (some c :: gs) <;> rfl
  all_goals exact fun _ => hother (by decide)

theorem next?_number (n : Number) {rest : List Glyph} (hr : Delimited rest) :
    next? (n.text.map some ++ rest) = some (some (.number n.reread?), rest) := by
  obtain ⟨t, ht, -⟩ := n.exists_numeral
  obtain ⟨l, hl, happend⟩ := numeral?_local _ _ _ ht
  have hread := happend rest (.inl hr)
  rw [List.append_nil] at hl
  rw [← hl] at hread
  rw [Number.reread?_eq ht]
  cases htext : n.text with
  | nil => rw [htext] at ht; cases ht
  | cons c cs =>
    have hc : IsNumeral c := n.text_isNumeral c (htext ▸ List.mem_cons_self)
    rw [htext, List.map_cons, List.cons_append] at hread
    rw [List.map_cons, List.cons_append, next?_isNumeral hc, hread]
    rfl

theorem next?_string (s : String) (rest : List Glyph) :
    next? ((quote s).map some ++ rest) = some (some (.string (some s)), rest) := by
  have hquoted := quoted?_quote s.toList [] rest
  have htext : text? [] (s.toList.map pieceOf) = some s.toList := text?_pieceOf s.toList []
  simp only [quote, List.map_cons, List.map_append, List.map_nil, List.cons_append,
    List.append_assoc, List.nil_append, next?, hquoted, List.reverse_nil, htext, Option.map_some,
    String.ofList_toList]

/-- The text of a token is read alike, whatever follows it. -/
theorem next?_chars {t : Token} (h : t.Written) {rest : List Glyph}
    (hr : t.isNumber = true → Delimited rest) :
    next? (t.chars.map some ++ rest) = some (some t.reread, rest) := by
  cases t with
  | number n =>
    cases n with
    | none => cases h
    | some n => exact next?_number n (hr rfl)
  | string s =>
    cases s with
    | none => cases h
    | some s => exact next?_string s rest
  | bool b => cases b <;> rfl
  | _ => rfl

end Token

end Goalbase

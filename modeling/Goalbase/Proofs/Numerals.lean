import Goalbase.Json.Token
import Mathlib.Data.List.Basic

/-!
# Goalbase.Proofs.Numerals

Numbers are read back from their text.

A reader is `Token.Local` when it takes characters from the front of the text and does not look
beyond a separator behind them, so that what it reads stays the same when the rest of the text is
replaced. Numerals are read that way (`Token.numeral?_local`). A number is `Legible` when its text,
read as a numeral, denotes it again. Integers are (`Number.legible_int`); that a double is depends
on the digits chosen for it. Whatever they are, a number is written with the characters of numerals
(`Number.text_isNumeral`).
-/

namespace Goalbase

namespace Token

def IsBlank (c : Char) : Prop := c = ' ' ∨ c = '\n' ∨ c = '\t' ∨ c = '\r'

instance (c : Char) : Decidable (IsBlank c) := inferInstanceAs (Decidable (_ ∨ _))

/-- The characters that separate a value from what follows it. -/
def IsSeparator (c : Char) : Prop := c = ',' ∨ c = ']' ∨ c = '\x7d' ∨ IsBlank c

instance (c : Char) : Decidable (IsSeparator c) := inferInstanceAs (Decidable (_ ∨ _))

/-- A text that goes on with a separator, if at all. -/
def Delimited : List Glyph → Prop
  | [] => True
  | g :: _ => ∃ c, g = some c ∧ IsSeparator c

/-- A text that may stand in the place of the text `r` behind a value: it goes on with the same
character or with a separator, or it ends. -/
def Replaces (rest r : List Glyph) : Prop := Delimited rest ∨ rest.head? = r.head?

/-- A reader that takes characters from the front and reads the same whatever replaces the text
behind them. -/
def Local {α : Type} (read : List Glyph → Option (α × List Glyph)) : Prop :=
  ∀ gs a r, read gs = some (a, r) →
    ∃ l, gs = l ++ r ∧ ∀ rest, Replaces rest r → read (l ++ rest) = some (a, rest)

variable {gs rest l r : List Glyph} {α β : Type} {read : List Glyph → Option (α × List Glyph)}

theorem Replaces.append (h : Replaces rest r) (l : List Glyph) : Replaces (l ++ rest) (l ++ r) := by
  cases l with
  | nil => exact h
  | cons g l => exact .inr rfl

/-- A character that is no separator comes first only if it came first before. -/
theorem Replaces.append_ne (hr : Replaces rest r) {c : Char} (hc : ¬IsSeparator c)
    (h : ∀ gs', l ++ r ≠ some c :: gs') : ∀ gs', l ++ rest ≠ some c :: gs' := by
  intro gs' he
  cases l with
  | nil =>
    rw [List.nil_append] at he
    subst he
    rcases hr with ⟨d, hd, hsep⟩ | hr
    · cases hd
      exact hc hsep
    · cases r with
      | nil => cases hr
      | cons g r =>
        cases hr
        exact h r rfl
  | cons g l =>
    rw [List.cons_append] at he
    exact h (l ++ r) (by rw [List.cons_append, (List.cons.inj he).1])

namespace Local

theorem congr {read' : List Glyph → Option (α × List Glyph)} (h : Local read)
    (he : ∀ gs, read' gs = read gs) : Local read' := by
  rw [funext he]
  exact h

theorem pure (a : α) : Local fun gs => some (a, gs) := by
  intro gs b r h
  cases h
  exact ⟨[], rfl, fun rest _ => rfl⟩

theorem bind (h : Local read) {next : α → List Glyph → Option (β × List Glyph)}
    (hnext : ∀ a, Local (next a)) :
    Local fun gs => match read gs with
      | some (a, gs) => next a gs
      | none => none := by
  intro gs b r hb
  dsimp only at hb ⊢
  cases ha : read gs with
  | none => rw [ha] at hb; cases hb
  | some p =>
    obtain ⟨a, gs'⟩ := p
    rw [ha] at hb
    obtain ⟨l, rfl, hread⟩ := h gs a gs' ha
    obtain ⟨l', rfl, hread'⟩ := hnext a gs' b r hb
    refine ⟨l ++ l', (List.append_assoc l l' r).symm, fun rest hr => ?_⟩
    rw [List.append_assoc, hread _ (hr.append l')]
    exact hread' rest hr

theorem map (h : Local read) (f : α → β) :
    Local fun gs => match read gs with
      | some (a, gs) => some (f a, gs)
      | none => none := h.bind fun a => pure (f a)

/-- A reader that goes by the first character: one of `cs`, or anything else. -/
theorem branch (cs : List Char) {first : Char → List Glyph → Option (α × List Glyph)}
    {other : List Glyph → Option (α × List Glyph)} (hcs : cs.all (¬IsSeparator ·) = true)
    (hfirst : ∀ c ∈ cs, Local (first c)) (hother : Local other)
    (h : ∀ c ∈ cs, ∀ gs, read (some c :: gs) = first c gs)
    (h' : ∀ gs, (∀ c ∈ cs, ∀ gs', gs ≠ some c :: gs') → read gs = other gs) : Local read := by
  intro gs a r ha
  by_cases hc : ∃ c ∈ cs, ∃ gs', gs = some c :: gs'
  · obtain ⟨c, hc, gs', rfl⟩ := hc
    rw [h c hc] at ha
    obtain ⟨l, rfl, hread⟩ := hfirst c hc gs' a r ha
    refine ⟨some c :: l, rfl, fun rest hr => ?_⟩
    rw [List.cons_append, h c hc]
    exact hread rest hr
  · have hne : ∀ c ∈ cs, ∀ gs', gs ≠ some c :: gs' := fun c hmem gs' he => hc ⟨c, hmem, gs', he⟩
    rw [h' gs hne] at ha
    obtain ⟨l, rfl, hread⟩ := hother gs a r ha
    refine ⟨l, rfl, fun rest hr => ?_⟩
    have hsep : ∀ c ∈ cs, ¬IsSeparator c := fun c hmem =>
      of_decide_eq_true (List.all_eq_true.1 hcs c hmem)
    rw [h' _ fun c hmem => hr.append_ne (hsep c hmem) (hne c hmem)]
    exact hread rest hr

end Local

/-! ## Numerals are read locally -/

theorem digit?_of_isSeparator {c : Char} (h : IsSeparator c) : digit? (some c) = none := by
  rcases h with rfl | rfl | rfl | rfl | rfl | rfl | rfl <;> rfl

/-- A text that does not go on with a digit. -/
def NoDigit : List Glyph → Prop
  | [] => True
  | g :: _ => digit? g = none

theorem noDigit_nil : NoDigit [] := trivial

theorem Replaces.noDigit (h : Replaces rest r) (hr : NoDigit r) : NoDigit rest := by
  cases rest with
  | nil => trivial
  | cons g rest =>
    rcases h with ⟨c, rfl, hc⟩ | h
    · exact digit?_of_isSeparator hc
    · cases r with
      | nil => cases h
      | cons g' r =>
        cases h
        exact hr

theorem digits_of_noDigit (h : NoDigit rest) (done : List Nat) :
    digits done rest = (done.reverse, rest) := by
  cases rest with
  | nil => rfl
  | cons g rest =>
    have hg : digit? g = none := h
    simp only [digits, hg]

theorem digits_local {done ds : List Nat} (h : digits done gs = (ds, r)) :
    ∃ l, gs = l ++ r ∧ ∀ rest, Replaces rest r → digits done (l ++ rest) = (ds, rest) := by
  induction gs generalizing done with
  | nil =>
    cases h
    exact ⟨[], rfl, fun rest hr => digits_of_noDigit (hr.noDigit noDigit_nil) done⟩
  | cons g gs ih =>
    simp only [digits] at h
    cases hg : digit? g with
    | some d =>
      rw [hg] at h
      obtain ⟨l, rfl, hread⟩ := ih h
      refine ⟨g :: l, rfl, fun rest hr => ?_⟩
      simp only [List.cons_append, digits, hg]
      exact hread rest hr
    | none =>
      rw [hg] at h
      cases h
      exact ⟨[], rfl, fun rest hr => digits_of_noDigit (hr.noDigit hg) done⟩

theorem someDigits?_local : Local someDigits? := by
  intro gs ds r h
  cases hd : digits [] gs with
  | mk es r' =>
    obtain ⟨l, rfl, hread⟩ := digits_local hd
    simp only [someDigits?, hd] at h
    cases es with
    | nil => cases h
    | cons e es =>
      cases h
      refine ⟨l, rfl, fun rest hr => ?_⟩
      simp only [someDigits?, hread rest hr]

theorem whole?_local : Local whole? := by
  refine .branch ['0'] rfl (fun _ _ => .pure [0]) someDigits?_local ?_ ?_
  · intro c hc gs
    rw [List.mem_singleton.1 hc]
    rfl
  · intro gs h
    rw [whole?]
    exact h '0' (by decide)

theorem fraction?_local : Local fraction? := by
  refine .branch ['.'] rfl (fun _ _ => someDigits?_local.map fun ds => (ds, true))
    (.pure ([], false)) ?_ ?_
  · intro c hc gs
    rw [List.mem_singleton.1 hc]
    simp only [fraction?]
    cases someDigits? gs <;> rfl
  · intro gs h
    rw [fraction?]
    exact h '.' (by decide)

theorem signedDigits?_local : Local signedDigits? := by
  refine .branch ['+', '-'] rfl
    (fun c _ => someDigits?_local.map fun ds => (decide (c = '-'), ds))
    (someDigits?_local.map fun ds => (false, ds)) ?_ ?_
  · intro c hc gs
    simp only [List.mem_cons, List.not_mem_nil, or_false] at hc
    rcases hc with rfl | rfl
    · simp only [signedDigits?]
      cases someDigits? gs <;> rfl
    · simp only [signedDigits?]
      cases someDigits? gs <;> rfl
  · intro gs h
    rw [signedDigits?]
    · cases someDigits? gs <;> rfl
    · exact h '+' (by decide)
    · exact h '-' (by decide)

theorem exponent?_local : Local exponent? := by
  refine .branch ['e', 'E'] rfl (fun _ _ => signedDigits?_local.map some) (.pure none) ?_ ?_
  · intro c hc gs
    simp only [List.mem_cons, List.not_mem_nil, or_false] at hc
    rcases hc with rfl | rfl
    · simp only [exponent?]
      cases signedDigits? gs <;> rfl
    · simp only [exponent?]
      cases signedDigits? gs <;> rfl
  · intro gs h
    rw [exponent?]
    · exact h 'e' (by decide)
    · exact h 'E' (by decide)

theorem unsigned?_local (negative : Bool) : Local (unsigned? negative) := by
  refine (whole?_local.bind fun whole => fraction?_local.bind fun f =>
    exponent?_local.map fun e => (⟨negative, whole, f.1, f.2, e⟩ : Numeral)).congr fun gs => ?_
  simp only [unsigned?]
  cases whole? gs with
  | none => rfl
  | some w =>
    simp only
    cases fraction? w.2 with
    | none => rfl
    | some f =>
      simp only
      cases exponent? f.2 <;> rfl

theorem numeral?_local : Local numeral? := by
  refine .branch ['-'] rfl (fun _ _ => unsigned?_local true) (unsigned?_local false) ?_ ?_
  · intro c hc gs
    rw [List.mem_singleton.1 hc]
    rfl
  · intro gs h
    rw [numeral?]
    exact h '-' (by decide)

/-! ## The digits of a natural number -/

theorem digit?_of_isDigit {c : Char} (h : c.isDigit = true) :
    digit? (some c) = some (c.toNat - 48) := by
  have hc : '0' ≤ c ∧ c ≤ '9' := by
    simp only [Char.isDigit, Bool.and_eq_true, decide_eq_true_eq] at h
    exact h
  simp only [digit?, hc, and_self, if_true]

/-- The values of digits. -/
def digitValues (cs : List Char) : List Nat := cs.map fun c => c.toNat - 48

theorem digits_append {cs : List Char} (h : ∀ c ∈ cs, c.isDigit = true) {rest : List Glyph}
    (hr : NoDigit rest) (done : List Nat) :
    digits done (cs.map some ++ rest) = (done.reverse ++ digitValues cs, rest) := by
  induction cs generalizing done with
  | nil => simp [digits_of_noDigit hr, digitValues]
  | cons c cs ih =>
    have hc := digit?_of_isDigit (h c List.mem_cons_self)
    simp only [List.map_cons, List.cons_append, digits, hc]
    rw [ih fun d hd => h d (List.mem_cons_of_mem _ hd)]
    simp [digitValues]

theorem someDigits?_append {cs : List Char} (h : ∀ c ∈ cs, c.isDigit = true) (hne : cs ≠ [])
    {rest : List Glyph} (hr : NoDigit rest) :
    someDigits? (cs.map some ++ rest) = some (digitValues cs, rest) := by
  have hdigits := digits_append h hr []
  cases cs with
  | nil => exact absurd rfl hne
  | cons c cs =>
    simp only [someDigits?, hdigits, List.reverse_nil, List.nil_append]
    rfl

/-- Digits as they stand before a point: no zero is in front of others. -/
structure Whole (cs : List Char) : Prop where
  isDigit : ∀ c ∈ cs, c.isDigit = true
  ne_nil : cs ≠ []
  head : ∀ {ds}, cs = '0' :: ds → ds = []

theorem whole?_append {cs : List Char} (h : Whole cs) {rest : List Glyph} (hr : NoDigit rest) :
    whole? (cs.map some ++ rest) = some (digitValues cs, rest) := by
  cases cs with
  | nil => exact absurd rfl h.ne_nil
  | cons c cs =>
    by_cases hc : c = '0'
    · subst hc
      rw [h.head rfl]
      rfl
    · rw [whole?]
      · exact someDigits?_append h.isDigit h.ne_nil hr
      · intro gs he
        exact hc (Option.some.inj (List.cons.inj he).1)

theorem ofDigits_values (cs : List Char) :
    Numeral.ofDigits (digitValues cs) = Nat.ofDigitChars 10 cs 0 := by
  have hfold : ∀ n, (cs.map fun c => c.toNat - 48).foldl (fun n d => n * 10 + d) n
      = Nat.ofDigitChars 10 cs n := by
    induction cs with
    | nil => intro n; simp [Nat.ofDigitChars_nil]
    | cons c cs ih =>
      intro n
      rw [List.map_cons, List.foldl_cons, ih, Nat.ofDigitChars_cons, Nat.mul_comm]
      rfl
  exact hfold 0

/-- Only zero is written with a leading zero. -/
theorem toDigits_head {n : Nat} {cs : List Char} (h : Nat.toDigits 10 n = '0' :: cs) : cs = [] := by
  induction n using Nat.strongRecOn generalizing cs with
  | ind n ih =>
    by_cases hn : n < 10
    · rw [Nat.toDigits_of_lt_base hn] at h
      exact (List.cons.inj h).2.symm
    · rw [Nat.toDigits_of_base_le (by decide) (Nat.not_lt.1 hn)] at h
      cases hd : Nat.toDigits 10 (n / 10) with
      | nil => exact absurd hd Nat.toDigits_ne_nil
      | cons c ds =>
        rw [hd, List.cons_append] at h
        obtain ⟨rfl, -⟩ := List.cons.inj h
        have hds : ds = [] := ih (n / 10) (by omega) hd
        have hvalue : Nat.ofDigitChars 10 (Nat.toDigits 10 (n / 10)) 0 = n / 10 :=
          Nat.ofDigitChars_ten_toDigits
        rw [hd, hds] at hvalue
        have hzero : Nat.ofDigitChars 10 ['0'] 0 = 0 := rfl
        omega

theorem toDigits_isDigit {n : Nat} {c : Char} (h : c ∈ Nat.toDigits 10 n) : c.isDigit = true :=
  Nat.isDigit_of_mem_toDigits (by decide) (by decide) h

theorem whole_toDigits (n : Nat) : Whole (Nat.toDigits 10 n) :=
  ⟨fun _ => toDigits_isDigit, Nat.toDigits_ne_nil, toDigits_head⟩

theorem unsigned?_toDigits (negative : Bool) (n : Nat) :
    unsigned? negative ((Nat.toDigits 10 n).map some)
      = some (⟨negative, digitValues (Nat.toDigits 10 n), [], false, none⟩, []) := by
  have hwhole := whole?_append (whole_toDigits n) noDigit_nil
  rw [List.append_nil] at hwhole
  simp only [unsigned?, hwhole, fraction?, exponent?]

/-- A sign may stand before an unsigned numeral. -/
theorem numeral?_signed {negative : Bool} {cs : List Char} {p : Numeral × List Glyph}
    (h : unsigned? negative (cs.map some) = some p) :
    numeral? ((if negative then '-' :: cs else cs).map some) = some p := by
  cases negative with
  | true => exact h
  | false =>
    rw [if_neg (by decide), numeral?]
    · exact h
    · intro gs he
      rw [he] at h
      cases h

end Token

namespace Number

/-- The text of the number is a numeral that denotes it. -/
def Legible (n : Number) : Prop :=
  ∃ t, Token.numeral? (n.text.map some) = some (t, []) ∧ t.value? = some n

theorem legible_int (z : Int) (h : -9223372036854775808 ≤ z) (h' : z < 18446744073709551616) :
    (int z h h').Legible := by
  have hofInt : ofInt? z = some (int z h h') := dif_pos ⟨h, h'⟩
  have hvalue : Numeral.ofDigits (Token.digitValues (Nat.toDigits 10 z.natAbs)) = z.natAbs := by
    rw [Token.ofDigits_values]
    exact Nat.ofDigitChars_ten_toDigits
  have hread := Token.numeral?_signed (Token.unsigned?_toDigits (decide (z < 0)) z.natAbs)
  simp only [decide_eq_true_eq] at hread
  refine ⟨_, hread, ?_⟩
  by_cases hz : z < 0
  · have hneg : -(z.natAbs : Int) = z := by omega
    have hne : (z == 0) = false := beq_eq_false_iff_ne.2 (by omega)
    simp only [Numeral.value?, Numeral.integer?, hvalue, hneg, hne, hofInt, hz, decide_true,
      Bool.or_self, Option.isSome_none, Bool.false_eq_true, if_false, if_true, Bool.and_false]
  · have hpos : (z.natAbs : Int) = z := by omega
    simp only [Numeral.value?, Numeral.integer?, hvalue, hpos, hofInt, hz, decide_false,
      Bool.or_self, Option.isSome_none, Bool.false_eq_true, if_false, Bool.false_and]

end Number

/-! ## What the text of a number is made of -/

namespace Token

/-- The characters that numbers are written with. -/
def IsNumeral (c : Char) : Prop := c.isDigit = true ∨ c ∈ ['-', '+', '.', 'e']

instance (c : Char) : Decidable (IsNumeral c) := inferInstanceAs (Decidable (_ ∨ _))

theorem isNumeral_toDigits {n : Nat} {c : Char} (h : c ∈ Nat.toDigits 10 n) : IsNumeral c :=
  .inl (toDigits_isDigit h)

end Token

namespace Decimal

open Token (IsNumeral isNumeral_toDigits)

variable {digits : List Char} (h : ∀ c ∈ digits, IsNumeral c)

include h

theorem positional_isNumeral (e : Int) : ∀ c ∈ positional digits e, IsNumeral c := by
  have hzero : ∀ {n c}, c ∈ List.replicate n '0' → IsNumeral c := by
    intro n c hc
    rw [List.eq_of_mem_replicate hc]
    exact .inl rfl
  intro c hc
  cases e with
  | ofNat zeros =>
    simp only [positional, List.mem_append, List.mem_cons, List.not_mem_nil, or_false] at hc
    rcases hc with (hc | hc) | hc | hc
    · exact h c hc
    · exact hzero hc
    · exact .inr (by rw [hc]; decide)
    · exact .inl (by rw [hc]; rfl)
  | negSucc n =>
    simp only [positional, List.mem_append, List.mem_cons] at hc
    have hpadded : ∀ d ∈ List.replicate (n + 1 + 1 - digits.length) '0' ++ digits, IsNumeral d := by
      intro d hd
      rcases List.mem_append.1 hd with hd | hd
      · exact hzero hd
      · exact h d hd
    rcases hc with hc | hc | hc
    · exact hpadded c (List.mem_of_mem_take hc)
    · exact .inr (by rw [hc]; decide)
    · exact hpadded c (List.mem_of_mem_drop hc)

theorem scientific_isNumeral (power : Int) : ∀ c ∈ scientific digits power, IsNumeral c := by
  intro c hc
  simp only [scientific, List.mem_append, List.mem_cons] at hc
  rcases hc with hc | hc | hc | hc
  · match digits, h, hc with
    | [d], h, hc => exact h c hc
    | d :: e :: rest, h, hc =>
      simp only [List.mem_cons] at hc
      rcases hc with hc | hc | hc
      · exact h c (by rw [hc]; exact List.mem_cons_self)
      · exact .inr (by rw [hc]; decide)
      · exact h c (List.mem_cons_of_mem _ (List.mem_cons.2 hc))
  · exact .inr (by rw [hc]; decide)
  · rw [hc]
    split
    · exact .inr (by decide)
    · exact .inr (by decide)
  · exact isNumeral_toDigits hc

omit h in
theorem write_isNumeral (layout : Layout) (d : Decimal) : ∀ c ∈ write layout d, IsNumeral c := by
  intro c hc
  have hdigits : ∀ c ∈ Nat.toDigits 10 d.digits, IsNumeral c := fun c => isNumeral_toDigits
  simp only [write] at hc
  split at hc
  · exact positional_isNumeral hdigits _ c hc
  · exact scientific_isNumeral hdigits _ c hc

end Decimal

theorem Number.text_isNumeral (n : Number) : ∀ c ∈ n.text, Token.IsNumeral c := by
  have hsigned : ∀ (negative : Bool) {cs : List Char}, (∀ c ∈ cs, Token.IsNumeral c) →
      ∀ c ∈ if negative then '-' :: cs else cs, Token.IsNumeral c := by
    intro negative cs h c hc
    cases negative with
    | false => exact h c hc
    | true =>
      rcases List.mem_cons.1 hc with hc | hc
      · exact .inr (by rw [hc]; decide)
      · exact h c hc
  cases n with
  | int z _ _ =>
    have htext := hsigned (decide (z < 0)) fun c => Token.isNumeral_toDigits (n := z.natAbs)
    simpa only [text, decide_eq_true_eq] using htext
  | double x => exact hsigned _ (Decimal.write_isNumeral layout _)

end Goalbase

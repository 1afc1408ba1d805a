import Goalbase.Proofs.Numerals
import Mathlib.Tactic.Positivity
import Mathlib.Tactic.Ring

/-!
# Goalbase.Proofs.Spelling

Every number is written as a numeral.

The text of a decimal is a numeral with a point or an exponent, unless zero is written with further
zeros before the point (`Decimal.pointed_write`). The shortest decimal of a double is never such a
zero: the last of the grids that are tried has a point in the interval (`Decimal.holds_above`),
and a point in the interval is not zero. So the text of a number is always read as one numeral, and
that of a double as a double if it is not too large (`Number.exists_numeral`,
`Number.isInteger_reread?`). What a number is read as is `Number.reread?`.
-/

namespace Goalbase

/-! ## Texts of numerals -/

namespace Token

variable {whole fraction exponent cs : List Char} {gs rest : List Glyph}

/-- The characters of a numeral without a sign that spells no integer. -/
def Pointed (cs : List Char) : Prop :=
  ∀ negative, ∃ t, unsigned? negative (cs.map some) = some (t, []) ∧ t.integer? = none

theorem pointed_append (hw : Whole whole) (hd : NoDigit (cs.map some)) {f : List Nat}
    {point : Bool} (hf : fraction? (cs.map some) = some ((f, point), rest))
    {e : Option (Bool × List Nat)} (he : exponent? rest = some (e, []))
    (h : (point || e.isSome) = true) : Pointed (whole ++ cs) := by
  intro negative
  refine ⟨⟨negative, digitValues whole, f, point, e⟩, ?_, if_pos h⟩
  rw [List.map_append]
  simp only [unsigned?, whole?_append hw hd, hf, he]

theorem fraction?_point (hf : ∀ c ∈ fraction, c.isDigit = true) (hne : fraction ≠ [])
    (hr : NoDigit rest) :
    fraction? (some '.' :: (fraction.map some ++ rest))
      = some ((digitValues fraction, true), rest) := by
  simp only [fraction?, someDigits?_append hf hne hr]

theorem exponent?_signed (he : ∀ c ∈ exponent, c.isDigit = true) (hne : exponent ≠ [])
    (negative : Bool) :
    exponent? (('e' :: (if negative then '-' else '+') :: exponent).map some)
      = some (some (negative, digitValues exponent), []) := by
  have hdigits := someDigits?_append he hne noDigit_nil
  rw [List.append_nil] at hdigits
  cases negative with
  | true => simp only [if_true, List.map_cons, exponent?, signedDigits?, hdigits]
  | false =>
    simp only [Bool.false_eq_true, if_false, List.map_cons, exponent?, signedDigits?, hdigits]

end Token

namespace Decimal

open Token (Whole Pointed pointed_append fraction?_point exponent?_signed toDigits_isDigit)

variable {digits : List Char}

theorem isDigit_zeros {n : Nat} : ∀ c ∈ List.replicate n '0', c.isDigit = true := by
  intro c hc
  rw [List.eq_of_mem_replicate hc]
  rfl

theorem pointed_point {whole fraction : List Char} (hw : Whole whole)
    (hf : ∀ c ∈ fraction, c.isDigit = true) (hne : fraction ≠ []) :
    Pointed (whole ++ '.' :: fraction) := by
  have hpoint := fraction?_point hf hne Token.noDigit_nil
  rw [List.append_nil] at hpoint
  exact pointed_append hw rfl hpoint rfl rfl

theorem pointed_positional (h : Whole digits) (e : Int) (hzero : digits = ['0'] → e ≤ 0) :
    Pointed (positional digits e) := by
  cases e with
  | ofNat zeros =>
    have hwhole : Whole (digits ++ List.replicate zeros '0') := by
      refine ⟨?_, List.append_ne_nil_of_left_ne_nil h.ne_nil _, fun {ds} he => ?_⟩
      · exact List.forall_mem_append.2 ⟨h.isDigit, isDigit_zeros⟩
      · cases digits with
        | nil => exact absurd rfl h.ne_nil
        | cons c cs =>
          obtain ⟨rfl, rfl⟩ := List.cons.inj he
          have hcs := h.head rfl
          have hzeros : zeros = 0 := by
            have hle : (zeros : Int) ≤ 0 := hzero (by rw [hcs])
            omega
          rw [hcs, hzeros]
          rfl
    have hdigit : ∀ c ∈ ['0'], c.isDigit = true := @isDigit_zeros 1
    exact pointed_point hwhole hdigit (List.cons_ne_nil _ _)
  | negSucc n =>
    have hpadded : ∀ c ∈ List.replicate (n + 1 + 1 - digits.length) '0' ++ digits,
        c.isDigit = true := List.forall_mem_append.2 ⟨isDigit_zeros, h.isDigit⟩
    have hlength : n + 1 < (List.replicate (n + 1 + 1 - digits.length) '0' ++ digits).length := by
      rw [List.length_append, List.length_replicate]
      omega
    simp only [positional]
    refine pointed_point ⟨?_, ?_, ?_⟩ ?_ ?_
    · exact fun c hc => hpadded c (List.mem_of_mem_take hc)
    · intro he
      have := congrArg List.length he
      rw [List.length_take, List.length_nil] at this
      omega
    · intro ds he
      by_cases hlen : digits.length ≤ n + 1
      · -- one zero stands before the point
        have := congrArg List.length he
        rw [List.length_take, List.length_append, List.length_replicate, List.length_cons] at this
        exact List.length_eq_zero_iff.1 (by omega)
      · have hnone : n + 1 + 1 - digits.length = 0 := by omega
        rw [hnone, List.replicate_zero, List.nil_append] at he
        have hsplit := List.take_append_drop (digits.length - (n + 1)) digits
        rw [he, List.cons_append] at hsplit
        exact (List.append_eq_nil_iff.1 (h.head hsplit.symm)).1
    · exact fun c hc => hpadded c (List.mem_of_mem_drop hc)
    · intro he
      have := congrArg List.length he
      rw [List.length_drop, List.length_nil] at this
      omega

/-- A single digit is no number with a zero in front. -/
theorem whole_digit {d : Char} (hd : d.isDigit = true) : Whole [d] :=
  ⟨fun _ hc => List.mem_singleton.1 hc ▸ hd, List.cons_ne_nil _ _,
    fun he => (List.cons.inj he).2.symm⟩

theorem pointed_scientific (h : Whole digits) (power : Int) : Pointed (scientific digits power) := by
  have hdigits : ∀ c ∈ Nat.toDigits 10 power.natAbs, c.isDigit = true := fun _ => toDigits_isDigit
  have hexponent := exponent?_signed hdigits Nat.toDigits_ne_nil (decide (power < 0))
  simp only [decide_eq_true_eq] at hexponent
  match digits, h with
  | [], h => exact absurd rfl h.ne_nil
  | [d], h =>
    have hpointed : Pointed ([d] ++ 'e' :: (if power < 0 then '-' else '+')
        :: Nat.toDigits 10 power.natAbs) :=
      pointed_append (whole_digit (h.isDigit d List.mem_cons_self)) rfl rfl hexponent rfl
    exact hpointed
  | d :: d' :: rest, h =>
    have hrest : ∀ c ∈ d' :: rest, c.isDigit = true :=
      fun c hc => h.isDigit c (List.mem_cons_of_mem _ hc)
    have hnoDigit : Token.NoDigit (('e' :: (if power < 0 then '-' else '+')
        :: Nat.toDigits 10 power.natAbs).map some) := rfl
    have hpoint := fraction?_point hrest (List.cons_ne_nil _ _) hnoDigit
    rw [← List.map_append, ← List.map_cons] at hpoint
    have hpointed : Pointed ([d] ++ '.' :: (d' :: rest ++ 'e' :: (if power < 0 then '-' else '+')
        :: Nat.toDigits 10 power.natAbs)) :=
      pointed_append (whole_digit (h.isDigit d List.mem_cons_self)) rfl hpoint hexponent rfl
    exact hpointed

/-- The text of a decimal is a numeral unless it is zero with further zeros before the point. -/
theorem pointed_write (layout : Layout) (d : Decimal)
    (h : d.digits = 0 → 0 < d.exponent → layout.leastScientific ≤ d.exponent) :
    Pointed (write layout d) := by
  have hwhole := Token.whole_toDigits d.digits
  simp only [write]
  split
  · rename_i hlayout
    refine pointed_positional hwhole _ fun hzero => ?_
    have hdigits : d.digits = 0 := by
      rw [← Nat.ofDigitChars_ten_toDigits (n := d.digits), hzero]
      rfl
    rw [hzero] at hlayout
    have hlength : ((['0'] : List Char).length : Int) = 1 := rfl
    by_contra hpos
    have := h hdigits (by omega)
    omega
  · exact pointed_scientific hwhole _

/-! ## The shortest decimal is not an overlong zero -/

theorem gridStep_pos (e : Int) : 0 < (gridStep e).1 ∧ 0 < (gridStep e).2 := by
  have hshift : ∀ {n k : Nat}, 0 < n → 0 < n <<< k := fun {n k} h => by
    rw [Nat.shiftLeft_eq]
    exact Nat.mul_pos h (Nat.pow_pos (by decide))
  cases e with
  | ofNat n => exact ⟨hshift (Nat.pow_pos (by decide)), Nat.one_pos⟩
  | negSucc n => exact ⟨hshift Nat.one_pos, Nat.pow_pos (by decide)⟩

/-- The multiple of the grid step below the middle of an interval. -/
def below (value : Nat) (e : Int) : Nat := value * (gridStep e).2 / (gridStep e).1

/-- A grid is missed only if the multiple above is outside the interval, and zero is found only if it
is inside. -/
theorem onGrid?_cases (i : Interval) (value : Nat) (e : Int) :
    (onGrid? i value e = none
        ∧ i.holds ((below value e + 1) * (gridStep e).1) (gridStep e).2 = false)
      ∨ ∃ digits, onGrid? i value e = some digits
        ∧ (digits = 0 → i.holds 0 (gridStep e).2 = true) := by
  have hbelow : i.holds (below value e * (gridStep e).1) (gridStep e).2 = true →
      below value e = 0 → i.holds 0 (gridStep e).2 = true := fun h hzero => by
    rwa [hzero, Nat.zero_mul] at h
  simp only [onGrid?, below] at hbelow ⊢
  cases hb : i.holds (value * (gridStep e).2 / (gridStep e).1 * (gridStep e).1) (gridStep e).2 with
  | false =>
    cases i.holds ((value * (gridStep e).2 / (gridStep e).1 + 1) * (gridStep e).1)
        (gridStep e).2 with
    | false => exact .inl ⟨rfl, rfl⟩
    | true => exact .inr ⟨_, rfl, fun h => absurd h (Nat.succ_ne_zero _)⟩
  | true =>
    refine .inr ?_
    cases i.holds ((value * (gridStep e).2 / (gridStep e).1 + 1) * (gridStep e).1)
        (gridStep e).2 with
    | false => exact ⟨_, rfl, hbelow hb⟩
    | true =>
      dsimp only
      split
      · exact ⟨_, rfl, hbelow hb⟩
      · split
        · exact ⟨_, rfl, fun h => absurd h (Nat.succ_ne_zero _)⟩
        · exact ⟨_, rfl, fun h => hbelow hb (Nat.add_eq_zero_iff.1 h).1⟩

/-- Zero is not in an interval above zero. -/
theorem holds_zero {i : Interval} (hlow : 0 < i.low) (e : Int) :
    i.holds 0 (gridStep e).2 = false := by
  have := Nat.mul_pos hlow (gridStep_pos e).2
  simp only [Interval.holds]
  split
  · simp only [Bool.and_eq_false_iff, decide_eq_false_iff_not]
    omega
  · simp only [Bool.and_eq_false_iff, decide_eq_false_iff_not]
    omega

/-- The multiple above the middle is in an interval whose upper half is wider than the grid step. -/
theorem holds_above {i : Interval} {value width : Nat} {e : Int} (hlow : i.low ≤ value)
    (hhigh : i.high = value + width)
    (hstep : (gridStep e).1 < width * (gridStep e).2) :
    i.holds ((below value e + 1) * (gridStep e).1) (gridStep e).2 = true := by
  have hdiv := Nat.div_add_mod (value * (gridStep e).2) (gridStep e).1
  have hmod := Nat.mod_lt (value * (gridStep e).2) (gridStep_pos e).1
  have hlow' := Nat.mul_le_mul_right (gridStep e).2 hlow
  have hmul : (below value e + 1) * (gridStep e).1
      = (gridStep e).1 * (value * (gridStep e).2 / (gridStep e).1) + (gridStep e).1 := by
    rw [below]
    ring
  have hsum : (value + width) * (gridStep e).2
      = value * (gridStep e).2 + width * (gridStep e).2 := by ring
  simp only [Interval.holds, hhigh, hmul, hsum]
  split
  · simp only [Bool.and_eq_true, decide_eq_true_eq]
    omega
  · simp only [Bool.and_eq_true, decide_eq_true_eq]
    omega

/-- Either a grid has a hit, or all were tried without one. -/
theorem firstHit_cases (i : Interval) (value tries : Nat) (e : Int) :
    (onGrid? i value (firstHit i value tries e).exponent = some (firstHit i value tries e).digits)
      ∨ firstHit i value tries e = ⟨0, e - tries⟩
        ∧ ∀ k : Nat, k < tries → onGrid? i value (e - k) = none := by
  induction tries generalizing e with
  | zero => exact .inr ⟨by simp [firstHit], fun k hk => by omega⟩
  | succ tries ih =>
    cases hgrid : onGrid? i value e with
    | some digits =>
      refine .inl ?_
      simp only [firstHit, hgrid]
    | none =>
      simp only [firstHit, hgrid]
      refine (ih (e - 1)).imp_right fun ⟨heq, hnone⟩ => ⟨?_, fun k hk => ?_⟩
      · rw [heq]
        simp only [Decimal.mk.injEq, true_and]
        push_cast
        ring
      · cases k with
        | zero => simpa using hgrid
        | succ k =>
          have := hnone k (by omega)
          rw [← this]
          congr 1
          push_cast
          ring

/-- The quarters of units of a double that is not zero, and the interval around them. -/
theorem around_bounds {x : Binary64} (hx : x.isZero = false) :
    0 < (Interval.around x).low ∧ (Interval.around x).low ≤ 4 * x.units
      ∧ (Interval.around x).high = 4 * x.units + (2 <<< x.scale) := by
  have hsig : 1 ≤ x.significand := Nat.one_le_iff_ne_zero.2 (beq_eq_false_iff_ne.1 hx)
  have hunits : 1 <<< x.scale ≤ x.units := by
    simp only [Binary64.units, Nat.shiftLeft_eq]
    exact Nat.mul_le_mul_right _ hsig
  have hone : 0 < 1 <<< x.scale := by
    rw [Nat.shiftLeft_eq]
    positivity
  have htwo : 2 <<< x.scale = 2 * 1 <<< x.scale := by
    simp only [Nat.shiftLeft_eq]
    ring
  refine ⟨?_, Nat.sub_le _ _, rfl⟩
  simp only [Interval.around]
  split
  · omega
  · omega

theorem log2_quarters_le (x : Binary64) : (4 * x.units).log2 ≤ x.scale + 54 := by
  by_cases hzero : 4 * x.units = 0
  · rw [hzero]
    exact Nat.zero_le _
  · refine Nat.le_of_lt_succ ((Nat.log2_lt hzero).2 ?_)
    have hsig := x.significand_lt
    have hpow : 0 < Nat.pow 2 x.scale := Nat.pow_pos (by decide)
    have hunits : x.units = x.significand * Nat.pow 2 x.scale := Nat.shiftLeft_eq _ _
    have hsplit : Nat.pow 2 (x.scale + 54 + 1) = 36028797018963968 * Nat.pow 2 x.scale := by
      rw [Nat.add_assoc, Nat.add_comm]
      exact Nat.pow_add 2 55 x.scale
    have := Nat.mul_lt_mul_of_pos_right hsig hpow
    have hgoal : 4 * x.units < Nat.pow 2 (x.scale + 54 + 1) := by
      rw [hunits, hsplit]
      omega
    exact hgoal

theorem shiftLeft_lt {n m k scale : Nat} (h : n < Nat.pow 2 m) (hsum : k + m = scale + 1) :
    n <<< k < 2 <<< scale :=
  calc n <<< k = n * Nat.pow 2 k := Nat.shiftLeft_eq n k
    _ < Nat.pow 2 m * Nat.pow 2 k := Nat.mul_lt_mul_of_pos_right h (Nat.pow_pos (by decide))
    _ = Nat.pow 2 (scale + 1) := by
      rw [Nat.mul_comm, ← hsum]
      exact (Nat.pow_add 2 k m).symm
    _ = 2 <<< scale := by
      rw [Nat.shiftLeft_eq, Nat.mul_comm]
      exact Nat.pow_succ 2 scale

/-- The last grid that is tried is fine enough where it would lie above the units of decimals. -/
theorem lastStep_lt {x : Binary64} {e : Int} (hlow : 2 ≤ e) (hhigh : e ≤ 16)
    (he : e = startExponent (4 * x.units) - 19) :
    (gridStep e).1 < (2 <<< x.scale) * (gridStep e).2 := by
  obtain ⟨n, rfl⟩ := Int.eq_ofNat_of_zero_le (by omega : 0 ≤ e)
  have hlog := log2_quarters_le x
  simp only [startExponent] at he
  -- so much of the scale is due to the distance of the first grid from the last
  have hscale : 1022 + 100000 * (n + 18) / 30103 ≤ x.scale := by omega
  have hten : ∀ n < 17, 2 ≤ n → Nat.pow 10 n < Nat.pow 2 (100000 * (n + 18) / 30103 - 53) := by
    decide
  have hpow : Nat.pow 10 n < Nat.pow 2 (x.scale - 1075) :=
    Nat.lt_of_lt_of_le (hten n (by omega) (by omega)) (Nat.pow_le_pow_right (by decide) (by omega))
  have hone : (gridStep n).2 = 1 := rfl
  rw [hone, Nat.mul_one]
  exact shiftLeft_lt hpow (by omega)

/-- Where the shortest decimal is a zero that is not at the unit, its exponent is written. -/
theorem shortest_zero (x : Binary64) (hdigits : (shortest x).digits = 0)
    (hexponent : 0 < (shortest x).exponent) : 16 ≤ (shortest x).exponent := by
  cases hx : x.isZero with
  | true =>
    rw [shortest, if_pos hx] at hexponent
    exact absurd hexponent (Int.lt_irrefl 0)
  | false =>
    rw [shortest, if_neg (by rw [hx]; decide)] at hdigits hexponent ⊢
    obtain ⟨hlow, hle, hhigh⟩ := around_bounds hx
    have hcases := onGrid?_cases (.around x) (4 * x.units)
    rcases firstHit_cases (.around x) (4 * x.units) 20 (startExponent (4 * x.units)) with
      hhit | ⟨hlast, hnone⟩
    · rcases hcases _ with ⟨hmiss, -⟩ | ⟨digits, hhit', hzero⟩
      · rw [hmiss] at hhit
        cases hhit
      · rw [hhit', Option.some.injEq] at hhit
        have := hzero (hhit.trans hdigits)
        rw [holds_zero hlow] at this
        cases this
    · rw [hlast] at hexponent ⊢
      dsimp only at hexponent ⊢
      by_contra hlt
      have hlastMissed := hnone 19 (by decide)
      generalize he : startExponent (4 * x.units) - ((19 : Nat) : Int) = e at hlastMissed
      rcases hcases e with ⟨-, habove⟩ | ⟨digits, hhit, -⟩
      · rw [holds_above hle hhigh (lastStep_lt (by omega) (by omega) he.symm)] at habove
        cases habove
      · rw [hlastMissed] at hhit
        cases hhit

end Decimal

/-! ## The text of a number -/

namespace Number

open Token (numeral? numeral?_signed)

/-- The text of a number is one numeral, and that of a double does not spell an integer. -/
theorem exists_numeral (n : Number) :
    ∃ t, numeral? (n.text.map some) = some (t, []) ∧ (n.isInteger = false → t.integer? = none) := by
  cases n with
  | int z h h' =>
    obtain ⟨t, ht, -⟩ := legible_int z h h'
    exact ⟨t, ht, fun hdouble => by cases hdouble⟩
  | double x =>
    obtain ⟨t, ht, hinteger⟩ := Decimal.pointed_write layout _ (Decimal.shortest_zero x) x.negative
    exact ⟨t, numeral?_signed ht, fun _ => hinteger⟩

/-- What the text of a number is read as, if it is not too large. -/
def reread? (n : Number) : Option Number :=
  match numeral? (n.text.map some) with
  | some (t, _) => t.value?
  | none => none

theorem reread?_eq {n : Number} {t : Numeral} (h : numeral? (n.text.map some) = some (t, [])) :
    n.reread? = t.value? := by
  rw [reread?, h]

theorem Legible.reread? {n : Number} (h : n.Legible) : n.reread? = some n := by
  obtain ⟨t, ht, hvalue⟩ := h
  rw [reread?_eq ht, hvalue]

/-- Doubles are read as doubles and integers as integers. -/
theorem isInteger_reread? {n m : Number} (h : n.reread? = some m) : m.isInteger = n.isInteger := by
  cases n with
  | int z hz hz' =>
    rw [(legible_int z hz hz').reread?] at h
    cases h
    rfl
  | double x =>
    obtain ⟨t, ht, hinteger⟩ := exists_numeral (.double x)
    rw [reread?_eq ht] at h
    simp only [Numeral.value?, hinteger rfl] at h
    obtain ⟨y, -, rfl⟩ := Option.map_eq_some_iff.1 h
    rfl

end Number

end Goalbase

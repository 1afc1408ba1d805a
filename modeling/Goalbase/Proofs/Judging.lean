import Goalbase.Relations
import Goalbase.Proofs.Literals
import Goalbase.Proofs.Ordering

/-!
# Goalbase.Proofs.Judging

Checks that see values only up to equality.

Literals that are equal need not be identical: the two zeros among doubles are the same number. A
check is `Impartial` when its judgement does not tell such literals apart, except for the values
that a fault names. Equal literals have the same order to every other literal
(`Literal.compare?_of_same`), so the checks that compare values are impartial, and so are those that
accept, reject, fault or unify fixed terms (`Check.Basic.impartial`).
-/

namespace Goalbase

/-! ## Equal literals compare alike -/

theorem Number.compare_of_same {a b : Number} (h : a.same b = true) (c : Number) :
    a.compare c = b.compare c := by
  cases a with
  | int z hz hz' =>
    cases b with
    | int w hw hw' =>
      simp only [same, beq_iff_eq] at h
      subst h
      rfl
    | double y => cases h
  | double x =>
    cases b with
    | int w hw hw' => cases h
    | double y =>
      simp only [same, Binary64.same, beq_iff_eq] at h
      simp only [compare, signedWord?, unsignedWord?, units, h]

theorem Number.signedWord?_of_same {a b : Number} (h : a.same b = true) :
    a.signedWord? = b.signedWord? := by
  cases a <;> cases b
  case int.int z _ _ w _ _ =>
    simp only [same, beq_iff_eq] at h
    simp only [signedWord?, h]
  case double.double => rfl
  all_goals cases h

theorem Json.compare?_of_same {x y : Json} (h : x.same y = true) (z : Json) :
    x.compare? z = y.compare? z := by
  cases x <;> cases y <;> try cases h
  case null.null => rfl
  case bool.bool =>
    simp only [same, beq_iff_eq] at h
    rw [h]
  case number.number m n =>
    simp only [same] at h
    cases z <;> try rfl
    exact congrArg some (Number.compare_of_same h _)
  case string.string =>
    simp only [same, beq_iff_eq] at h
    rw [h]
  case array.array => cases z <;> rfl
  case object.object => cases z <;> rfl

namespace Literal

variable {a a' b b' : Literal}

theorem compare?_of_same (ha : a.same a' = true) (hb : b.same b' = true) :
    a.compare? b = a'.compare? b' := by
  simp only [compare?]
  rw [Json.compare?_of_same ha, Json.compare?_swap b.json, Json.compare?_swap b'.json,
    Json.compare?_of_same hb]

theorem signedWord?_of_same (h : a.same b = true) : a.signedWord? = b.signedWord? := by
  obtain ⟨x, hx⟩ := a
  obtain ⟨y, hy⟩ := b
  simp only [same] at h
  simp only [signedWord?]
  cases x <;> cases y <;> try rfl
  case number.number m n => exact Number.signedWord?_of_same h
  all_goals cases h

end Literal

namespace Term

variable {t u t' u' : Term}

theorem same_of_same (ht : t.same t' = true) (hu : u.same u' = true) : t.same u = t'.same u' := by
  rw [Bool.eq_iff_iff]
  exact ⟨fun h => same_trans (same_symm ht) (same_trans h hu),
    fun h => same_trans ht (same_trans h (same_symm hu))⟩

/-- Equal terms are equal literals or one variable. -/
theorem same_cases (h : t.same u = true) :
    (∃ a b, t = .lit a ∧ u = .lit b ∧ a.same b = true) ∨ ∃ x, t = .var x ∧ u = .var x := by
  cases u with
  | lit b =>
    obtain ⟨a, ht, hab⟩ := exists_lit_of_same h
    exact .inl ⟨a, b, ht, rfl, hab⟩
  | var x => exact .inr ⟨x, eq_of_same_var h, rfl⟩

end Term

namespace Fault

theorem same_refl : ∀ a : Fault, a.same a = true
  | .incomparable a b => by simp only [same, Literal.same_refl, Bool.and_self]

theorem same_symm : ∀ {a b : Fault}, a.same b = true → b.same a = true
  | .incomparable a b, .incomparable c d, h => by
    simp only [same, Bool.and_eq_true] at h ⊢
    exact ⟨Literal.same_symm h.1, Literal.same_symm h.2⟩

theorem same_trans : ∀ {a b c : Fault}, a.same b = true → b.same c = true → a.same c = true
  | .incomparable a b, .incomparable c d, .incomparable e f, h, h' => by
    simp only [same, Bool.and_eq_true] at h h' ⊢
    exact ⟨Literal.same_trans h.1 h'.1, Literal.same_trans h.2 h'.2⟩

end Fault

/-! ## Impartial checks -/

/-- Verdicts that differ at most in how the values of a fault are written. -/
inductive Verdict.Same : Verdict → Verdict → Prop where
  | accept : Same .accept .accept
  | reject : Same .reject .reject
  | fault {a b : Fault} (h : a.same b = true) : Same (.fault a) (.fault b)

/-- The verdict of the check is the same however the equal literals that its terms resolve to are
written. -/
inductive Check.Impartial : Check → Prop where
  | test {terms : List Term} {judge : List Term → Verdict}
      (h : ∀ ρ σ : Term → Term, (∀ t, (ρ t).same (σ t) = true) →
        (judge (terms.map ρ)).Same (judge (terms.map σ))) : Impartial (.test terms judge)
  | unify (pairs : List (Term × Term)) : Impartial (.unify pairs)

namespace Check

theorem impartial_always : always.Impartial := .test fun _ _ _ => .accept

theorem impartial_never : never.Impartial := .test fun _ _ _ => .reject

theorem impartial_fails (reason : Fault) : (fails reason).Impartial :=
  .test fun _ _ _ => .fault (Fault.same_refl reason)

theorem impartial_distinct (a b : Term) : (distinct a b).Impartial := by
  refine .test fun ρ σ h => ?_
  simp only [List.map_cons, List.map_nil, Term.same_of_same (h a) (h b)]
  split
  · exact .reject
  · exact .accept

theorem impartial_even (a : Term) : (even a).Impartial := by
  refine .test fun ρ σ h => ?_
  simp only [List.map_cons, List.map_nil]
  obtain ⟨b, c, hb, hc, hbc⟩ | ⟨x, hb, hc⟩ := Term.same_cases (h a)
  · simp only [hb, hc, Literal.signedWord?_of_same hbc]
    cases c.signedWord? with
    | none => exact .reject
    | some z =>
      dsimp only
      split
      · exact .accept
      · exact .reject
  · simp only [hb, hc]
    exact .reject

theorem impartial_notEq (a b : Term) : (Check.test [a, b] Relations.notEqJudge).Impartial := by
  refine .test fun ρ σ h => ?_
  simp only [List.map_cons, List.map_nil]
  obtain ⟨c, c', hc, hc', hcc⟩ | ⟨x, hx, hx'⟩ := Term.same_cases (h a)
  · obtain ⟨d, d', hd, hd', hdd⟩ | ⟨y, hy, hy'⟩ := Term.same_cases (h b)
    · have hsame : c.same d = c'.same d' := by
        simpa only [hc, hc', hd, hd', Term.same] using Term.same_of_same (h a) (h b)
      simp only [hc, hc', hd, hd', Relations.notEqJudge, hsame]
      split
      · exact .reject
      · exact .accept
    · simp only [hc, hc', hy, hy', Relations.notEqJudge]
      exact .accept
  · simp only [hx, hx', Relations.notEqJudge]
    exact .accept

/-- Without an order the fault names the literals as they are written. -/
theorem impartial_compare (a b : Term) (expected : Int) :
    (Check.test [a, b] (Relations.compareJudge expected)).Impartial := by
  refine .test fun ρ σ h => ?_
  simp only [List.map_cons, List.map_nil]
  obtain ⟨c, c', hc, hc', hcc⟩ | ⟨x, hx, hx'⟩ := Term.same_cases (h a)
  · obtain ⟨d, d', hd, hd', hdd⟩ | ⟨y, hy, hy'⟩ := Term.same_cases (h b)
    · simp only [hc, hc', hd, hd', Relations.compareJudge, Literal.compare?_of_same hcc hdd]
      cases c'.compare? d' with
      | none => exact .fault (by simp only [Fault.same, hcc, hdd, Bool.and_self])
      | some o =>
        dsimp only
        split
        · exact .accept
        · exact .reject
    · simp only [hc, hc', hy, hy', Relations.compareJudge]
      exact .reject
  · simp only [hx, hx', Relations.compareJudge]
    exact .reject

/-- Checks that accept, reject or fault, that compare the values of two terms or look at one value,
or that unify fixed terms. -/
inductive Basic : Check → Prop where
  | always : Basic always
  | never : Basic never
  | fails (reason : Fault) : Basic (fails reason)
  | distinct (a b : Term) : Basic (distinct a b)
  | even (a : Term) : Basic (even a)
  | notEq (a b : Term) : Basic (.test [a, b] Relations.notEqJudge)
  | compare (a b : Term) (expected : Int) : Basic (.test [a, b] (Relations.compareJudge expected))
  | unify (pairs : List (Term × Term)) : Basic (.unify pairs)

theorem Basic.impartial {check : Check} (h : check.Basic) : check.Impartial := by
  cases h with
  | always => exact impartial_always
  | never => exact impartial_never
  | fails reason => exact impartial_fails reason
  | distinct a b => exact impartial_distinct a b
  | even a => exact impartial_even a
  | notEq a b => exact impartial_notEq a b
  | compare a b expected => exact impartial_compare a b expected
  | unify pairs => exact .unify pairs

end Check

end Goalbase

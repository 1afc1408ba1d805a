import Goalbase.Proofs.Enumerating
import Mathlib.Order.Interval.Finset.Nat

/-!
# Goalbase.Proofs.Returning

When pulls on a conjunction return.

A bound stream goes round its parts until one of them has an item. Where its source comes to an end
it does so too, or finds an item before (`Ledger.ends_of_nothing_due`, `Ledger.gives_of_due`). Where
the source goes on for ever, pulls on the bound stream return for ever exactly when there are
infinitely many items to be found (`bind_responsive_iff`): if the goal answers only finitely many of
the states and the rest of the source passes nothing, some pull goes round for ever.
-/

namespace Goalbase

namespace Stream

variable {t u src : Stream} {i : Item} {goal : Goal}

theorem Gives.unending_iff (h : t.Gives i u) : t.Unending ↔ u.Unending := by
  constructor
  · exact fun ht => ht.rest h
  · intro hu n
    cases n with
    | zero => exact ⟨i, .zero h⟩
    | succ n =>
      obtain ⟨j, hj⟩ := hu n
      exact ⟨j, .succ h hj⟩

theorem Unending.not_ends (h : t.Unending) : ¬t.Ends := by
  obtain ⟨i, hi⟩ := h 0
  exact hi.not_ends

/-- Where one pull finds an item, those before it do. -/
theorem Nth.exists_le {n m : Nat} (h : t.Nth n i) (hle : m ≤ n) : ∃ j, t.Nth m j := by
  induction h generalizing m with
  | zero h =>
    rw [Nat.le_zero.1 hle]
    exact ⟨_, .zero h⟩
  | succ h _ ih =>
    cases m with
    | zero => exact ⟨_, .zero h⟩
    | succ m =>
      obtain ⟨j, hj⟩ := ih (Nat.le_of_succ_le_succ hle)
      exact ⟨j, .succ h hj⟩

/-- A stream goes on for ever when it enumerates infinitely many items. -/
theorem Enumerates.unending_iff {α : Type} {F : α → Item → Prop} (h : t.Enumerates F) :
    t.Unending ↔ {a | ∃ i, F a i}.Infinite := by
  obtain ⟨place, hplace⟩ := h
  constructor
  · intro ht hfin
    have himage : place '' {a | ∃ i, F a i} = Set.univ := by
      refine Set.eq_univ_of_forall fun n => ?_
      obtain ⟨i, hi⟩ := ht n
      obtain ⟨a, ⟨ha, hn⟩, -⟩ := hplace.unique n i hi
      exact ⟨a, ⟨i, ha⟩, hn⟩
    have huniv := hfin.image place
    rw [himage] at huniv
    exact Set.infinite_univ huniv
  · intro hinf n
    have hinj : Set.InjOn place {a | ∃ i, F a i} := by
      rintro a ⟨i, ha⟩ b ⟨j, hb⟩ he
      have hnth := hplace.found b j hb
      rw [← he] at hnth
      obtain rfl := hnth.deterministic (hplace.found a i ha)
      exact (hplace.unique _ j hnth).unique ⟨ha, rfl⟩ ⟨hb, he.symm⟩
    obtain ⟨m, ⟨a, ⟨i, ha⟩, rfl⟩, hlt⟩ := Set.Infinite.exists_gt (hinf.image hinj) n
    exact (hplace.found a i ha).exists_le hlt.le

namespace Ledger

variable {L L' : Ledger} {a : Option (Origin × Item)} {o : Origin}

/-- The source goes on for ever. -/
def SourceUnending (L : Ledger) : Prop := ∃ n src, L.source = some (n, src) ∧ src.Unending

theorem Turn.sourceUnending_iff (h : Turn goal L a L') :
    L.SourceUnending ↔ L'.SourceUnending := by
  cases h with
  | pass _ hg _ => simp [SourceUnending, hg.unending_iff]
  | start _ hg _ => simp [SourceUnending, hg.unending_iff]
  | close _ he =>
    simp only [SourceUnending]
    constructor
    · rintro ⟨_, _, hsrc, hu⟩
      cases hsrc
      exact absurd he hu.not_ends
    · rintro ⟨_, _, hsrc, -⟩
      cases hsrc
  | give _ _ => exact Iff.rfl
  | drop _ _ => exact Iff.rfl

theorem Idles.sourceUnending_iff (h : Idles goal L L') :
    L.SourceUnending ↔ L'.SourceUnending := by
  induction h with
  | refl => exact Iff.rfl
  | tail _ h ih => exact ih.trans h.sourceUnending_iff

section Prompt

variable (hgoal : ∀ s, (goal.apply s).value.Responsive)

include hgoal

/-- What is due is found, if only after other items. -/
theorem gives_of_due (hL : L.Prompt) (h : Due goal L o i) :
    ∃ j u, (L.stream goal).Gives j u := by
  obtain ⟨m, hm⟩ := serves_of_due hgoal hL h
  exact hm.nth.exists_gives

/-- By induction on how many items the source still has, and then on the streams started. -/
theorem ends_of_nothing_due (hL : L.Prompt) (hdue : ∀ o i, ¬Due goal L o i)
    (hsource : ¬L.SourceUnending) : (L.stream goal).Ends := by
  obtain ⟨bound, hbound⟩ : ∃ bound, ∀ n src, L.source = some (n, src) →
      ∃ m < bound, ∀ i, ¬src.Nth m i := by
    obtain ⟨source, q, turn⟩ := L
    cases source with
    | none => exact ⟨0, fun n src h => by cases h⟩
    | some p =>
      obtain ⟨n, src⟩ := p
      have hnot : ¬src.Unending := fun hu => hsource ⟨n, src, rfl, hu⟩
      simp only [Unending, not_forall, not_exists] at hnot
      obtain ⟨m, hm⟩ := hnot
      refine ⟨m + 1, fun n' src' h => ?_⟩
      cases h
      exact ⟨m, Nat.lt_succ_self m, hm⟩
  clear hsource
  induction bound using Nat.strongRecOn generalizing L with
  | ind bound ih =>
    obtain ⟨length, hlength⟩ : ∃ length, L.started.length = length := ⟨_, rfl⟩
    induction length using Nat.strongRecOn generalizing L with
    | ind length ihlength =>
      rcases hL.exists_turn goal with hend | ⟨a, L', hturn⟩
      · exact hend.ends goal
      · cases a with
        | some e => exact absurd hturn.due_given (hdue e.1 e.2)
        | none =>
          obtain ⟨n, hq⟩ := hturn.silent
          have hL' := hturn.prompt hgoal hL
          have hdue' : ∀ o i, ¬Due goal L' o i := fun o i h => hdue o i (hturn.due_before h)
          rw [hq.ends_iff]
          cases hturn with
          | start _ hg _ =>
            obtain ⟨m, hlt, hm⟩ := hbound _ _ rfl
            cases m with
            | zero => exact absurd (.zero hg) (hm _)
            | succ m =>
              refine ih (m + 1) hlt hL' hdue' fun n' src' h => ?_
              cases h
              exact ⟨m, Nat.lt_succ_self m, fun i hi => hm i (.succ hg hi)⟩
          | close _ _ =>
            obtain ⟨m, hlt, -⟩ := hbound _ _ rfl
            exact ih m hlt hL' hdue' fun n' src' h => by cases h
          | @drop _ _ _ _ q _ _ _ =>
            have hlt : q.length < length := by
              rw [← hlength]
              exact Nat.lt_succ_self _
            exact ihlength _ hlt hL' hdue' hbound rfl

theorem not_sourceUnending_of_ends (hL : L.Prompt) (h : (L.stream goal).Ends) :
    ¬L.SourceUnending := by
  obtain ⟨steps, u, h⟩ := h
  induction steps using Nat.strongRecOn generalizing L with
  | ind steps ih =>
    rcases hL.exists_turn goal with hend | ⟨a, L', hturn⟩
    · rintro ⟨_, _, hsrc, -⟩
      rw [hend.1] at hsrc
      cases hsrc
    · cases a with
      | some e => exact absurd ⟨steps, u, h⟩ hturn.gives.not_ends
      | none =>
        obtain ⟨n, hq⟩ := hturn.silent
        obtain ⟨k, rfl, hk⟩ := hq.pull_rest (fun v h' => by rw [h] at h'; cases h')
        rw [h] at hk
        rw [hturn.sourceUnending_iff]
        exact ih k (by omega) (hturn.prompt hgoal hL) hk.symm

/-- Where something is due or the source comes to an end, a pull returns. -/
theorem returns_or_rest (hL : L.Prompt) (h : ¬L.SourceUnending ∨ ∃ o i, Due goal L o i) :
    (L.stream goal).Ends ∨
      ∃ (i : Item) (L' : Ledger), (L.stream goal).Gives i (L'.stream goal) ∧ L'.Prompt
        ∧ (L.SourceUnending ↔ L'.SourceUnending) := by
  by_cases hdue : ∃ o i, Due goal L o i
  · obtain ⟨o, i, ho⟩ := hdue
    obtain ⟨j, u, hu⟩ := gives_of_due hgoal hL ho
    obtain ⟨L₁, o', L₂, hidle, hturn, rfl, hL₂⟩ := turn_of_gives hgoal hL hu
    exact .inr ⟨j, L₂, hu, hL₂, hidle.sourceUnending_iff.trans hturn.sourceUnending_iff⟩
  · rcases h with h | h
    · simp only [not_exists] at hdue
      exact .inl (ends_of_nothing_due hgoal hL hdue h)
    · exact absurd h hdue

end Prompt

theorem sourceUnending_ofSource : (ofSource src).SourceUnending ↔ src.Unending := by
  constructor
  · rintro ⟨_, _, h, hu⟩
    cases h
    exact hu
  · exact fun h => ⟨0, src, rfl, h⟩

end Ledger

section Bind

variable (hsrc : src.Responsive) (hgoal : ∀ s, (goal.apply s).value.Responsive)

include hsrc hgoal

theorem bind_responsive_of_source_ends (h : ¬src.Unending) : (src.bind goal).Responsive := by
  refine .of_invariant (fun t => ∃ L : Ledger, t = L.stream goal ∧ L.Prompt ∧ ¬L.SourceUnending)
    ?_ ⟨_, rfl, Ledger.prompt_ofSource hsrc, fun hu => h (Ledger.sourceUnending_ofSource.1 hu)⟩
  rintro _ ⟨L, rfl, hL, hu⟩
  rcases Ledger.returns_or_rest hgoal hL (.inl hu) with he | ⟨i, L', hg, hL', hiff⟩
  · exact .inl he
  · exact .inr ⟨i, _, hg, L', rfl, hL', fun hu' => hu (hiff.2 hu')⟩

/-- A bound stream whose source never ends does not end either, so it goes on for ever if pulls on it
return. -/
theorem bind_unending_of_responsive (hu : src.Unending) (h : (src.bind goal).Responsive) :
    (src.bind goal).Unending := by
  have hrest : ∀ n (L : Ledger), L.Prompt → L.SourceUnending → (L.stream goal).Responsive →
      ∃ i, (L.stream goal).Nth n i := by
    intro n
    induction n with
    | zero =>
      intro L hL hsrc hr
      rcases hr.returns with he | ⟨i, u, hg⟩
      · exact absurd hsrc (Ledger.not_sourceUnending_of_ends hgoal hL he)
      · exact ⟨i, .zero hg⟩
    | succ n ih =>
      intro L hL hsrc hr
      rcases hr.returns with he | ⟨i, u, hg⟩
      · exact absurd hsrc (Ledger.not_sourceUnending_of_ends hgoal hL he)
      · obtain ⟨L₁, o, L₂, hidle, hturn, rfl, hL₂⟩ := Ledger.turn_of_gives hgoal hL hg
        have hiff := hidle.sourceUnending_iff.trans hturn.sourceUnending_iff
        obtain ⟨j, hj⟩ := ih L₂ hL₂ (hiff.1 hsrc) (hr.rest hg)
        exact ⟨j, .succ hg hj⟩
  exact fun n => hrest n (.ofSource src) (Ledger.prompt_ofSource hsrc)
    (Ledger.sourceUnending_ofSource.2 hu) h

/-- Pulls on a bound stream return for ever exactly when its source comes to an end or there are
infinitely many items to be found. -/
theorem bind_responsive_iff : (src.bind goal).Responsive ↔
    (src.Unending →
      {o | ∃ i, Joined (fun n => src.Nth n) (fun s k => (goal.apply s).value.Nth k) o i}.Infinite) := by
  have hmany := (bind_nth_enumerates hsrc hgoal).unending_iff
  constructor
  · intro h hu
    exact hmany.1 (bind_unending_of_responsive hsrc hgoal hu h)
  · intro h
    by_cases hu : src.Unending
    · exact (hmany.2 (h hu)).responsive
    · exact bind_responsive_of_source_ends hsrc hgoal hu

/-- Nothing waits for ever if the goal has an item on every state. -/
theorem bind_responsive (hgives : ∀ s, ∃ i u, (goal.apply s).value.Gives i u) :
    (src.bind goal).Responsive := by
  refine (bind_responsive_iff hsrc hgoal).2 fun hu => ?_
  -- every item of the source passes or has the first item of the stream it starts
  have hitem : ∀ n, ∃ o, (∃ i, Joined (fun n => src.Nth n)
      (fun s k => (goal.apply s).value.Nth k) o i) ∧ o.elim id Prod.fst = n := by
    intro n
    obtain ⟨i, hi⟩ := hu n
    cases hs : success? i with
    | none => exact ⟨.inl n, ⟨i, .passed hi hs⟩, rfl⟩
    | some s =>
      obtain ⟨rfl, hlive⟩ := success?_eq_some.1 hs
      obtain ⟨j, u, hj⟩ := hgives s
      exact ⟨.inr (n, 0), ⟨j, .followed hi hlive (.zero hj)⟩, rfl⟩
  intro hfin
  have himage := hfin.image fun o : Nat ⊕ Nat × Nat => o.elim id Prod.fst
  refine Set.infinite_univ (himage.subset fun n _ => ?_)
  obtain ⟨o, ho, hn⟩ := hitem n
  exact ⟨o, ho, hn⟩

end Bind

end Stream

end Goalbase

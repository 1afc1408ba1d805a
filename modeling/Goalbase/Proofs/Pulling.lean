import Goalbase.Proofs.Draining

/-!
# Goalbase.Proofs.Pulling

Pulls on streams that need not end.

`t.Gives i u` and `t.Ends` say what a pull on `t` finds; `t.Nth n i` says that the `n`-th pull,
counted from 0, finds `i`. A stream is `Responsive` when every pull on it returns, and `Unending`
when every pull finds an item. Silent steps change none of this (`Quiet.gives_iff`,
`Quiet.ends_iff`). `Responsive.of_invariant` is the rule by which streams are shown to be
responsive: an invariant under which a pull returns, and which the rest of the stream keeps.
-/

namespace Goalbase

namespace Stream

/-- A pull finds an item and leaves a rest. -/
def Gives (t : Stream) (i : Item) (u : Stream) : Prop :=
  ∃ steps, (t.pull steps).value = .answer i u

/-- A pull finds the end. -/
def Ends (t : Stream) : Prop := ∃ steps u, (t.pull steps).value = .ended u

/-- A pull returns. -/
def Returns (t : Stream) : Prop := t.Ends ∨ ∃ i u, t.Gives i u

/-- The `n`-th pull finds the item, and those before it found items too. -/
inductive Nth : Stream → Nat → Item → Prop where
  | zero {t u : Stream} {i : Item} (h : t.Gives i u) : Nth t 0 i
  | succ {t u : Stream} {i j : Item} {n : Nat} (h : t.Gives j u) (rest : Nth u n i) :
      Nth t (n + 1) i

/-- What is left of a stream after pulls that returned, also after its end. -/
inductive Pulled : Stream → Stream → Prop where
  | refl (t : Stream) : Pulled t t
  | answer {t u v : Stream} {steps : Nat} {i : Item} (h : (t.pull steps).value = .answer i u)
      (rest : Pulled u v) : Pulled t v
  | ended {t u v : Stream} {steps : Nat} (h : (t.pull steps).value = .ended u)
      (rest : Pulled u v) : Pulled t v

/-- Every pull returns. -/
def Responsive (t : Stream) : Prop := ∀ u, Pulled t u → u.Returns

/-- Every pull finds an item. -/
def Unending (t : Stream) : Prop := ∀ n, ∃ i, t.Nth n i

/-! ## Silent steps -/

/-- So many silent steps lead from one stream to the other. -/
inductive Quiet : Nat → Stream → Stream → Prop where
  | refl (t : Stream) : Quiet 0 t t
  | step {t u v : Stream} {n : Nat} (h : t.step.value = .silent u) (rest : Quiet n u v) :
      Quiet (n + 1) t v

variable {t u v : Stream} {i j : Item} {n m : Nat}

theorem Quiet.single (h : t.step.value = .silent u) : Quiet 1 t u := .step h (.refl u)

theorem Quiet.trans (h : Quiet n t u) (h' : Quiet m u v) : Quiet (n + m) t v := by
  induction h with
  | refl t => rw [Nat.zero_add]; exact h'
  | step hs _ ih =>
    have := Quiet.step hs (ih h')
    rwa [Nat.add_right_comm] at this

/-- Silent steps are taken out of the steps of a pull. -/
theorem Quiet.pull (h : Quiet n t u) (m : Nat) : (t.pull (n + m)).value = (u.pull m).value := by
  induction h with
  | refl t => rw [Nat.zero_add]
  | @step t u v n hs _ ih =>
    rw [Nat.add_right_comm, value_pull_succ, hs]
    exact ih

theorem quiet_of_answer {steps : Nat} (h : (t.pull steps).value = .answer i u) :
    ∃ n v, n < steps ∧ Quiet n t v ∧ v.step.value = .item i u := by
  induction steps generalizing t with
  | zero => cases h
  | succ steps ih =>
    rw [value_pull_succ] at h
    cases hs : t.step.value with
    | ended => rw [hs] at h; cases h
    | item j v =>
      rw [hs] at h
      cases h
      exact ⟨0, t, Nat.succ_pos _, .refl t, hs⟩
    | silent v =>
      rw [hs] at h
      obtain ⟨n, w, hlt, hq, hw⟩ := ih h
      exact ⟨n + 1, w, Nat.succ_lt_succ hlt, .step hs hq, hw⟩

theorem quiet_of_ended {steps : Nat} (h : (t.pull steps).value = .ended u) :
    ∃ n, n < steps ∧ Quiet n t u ∧ u.step.value = .ended := by
  induction steps generalizing t with
  | zero => cases h
  | succ steps ih =>
    rw [value_pull_succ] at h
    cases hs : t.step.value with
    | ended =>
      rw [hs] at h
      cases h
      exact ⟨0, Nat.succ_pos _, .refl _, hs⟩
    | item j v => rw [hs] at h; cases h
    | silent v =>
      rw [hs] at h
      obtain ⟨n, hlt, hq, hw⟩ := ih h
      exact ⟨n + 1, Nat.succ_lt_succ hlt, .step hs hq, hw⟩

/-- What is left of the steps of a pull that returns after silent steps. -/
theorem Quiet.pull_rest (h : Quiet n t u) {steps : Nat}
    (hs : ∀ v, (t.pull steps).value ≠ .unfinished v) :
    ∃ k, steps = n + k ∧ (t.pull steps).value = (u.pull k).value := by
  induction h generalizing steps with
  | refl t => exact ⟨steps, (Nat.zero_add steps).symm, rfl⟩
  | step hstep _ ih =>
    cases steps with
    | zero => exact absurd rfl (hs _)
    | succ steps =>
      rw [value_pull_succ, hstep] at hs ⊢
      obtain ⟨k, rfl, hk⟩ := ih hs
      exact ⟨k, Nat.add_right_comm _ _ 1, hk⟩

theorem Quiet.pull_item (h : Quiet n t v) (hv : v.step.value = .item i u) {steps : Nat}
    (hn : n < steps) : (t.pull steps).value = .answer i u := by
  obtain ⟨k, rfl⟩ := Nat.exists_eq_add_of_lt hn
  rw [Nat.add_assoc, h.pull, value_pull_succ, hv]

theorem Quiet.pull_ended (h : Quiet n t u) (hu : u.step.value = .ended) {steps : Nat}
    (hn : n < steps) : (t.pull steps).value = .ended u := by
  obtain ⟨k, rfl⟩ := Nat.exists_eq_add_of_lt hn
  rw [Nat.add_assoc, h.pull, value_pull_succ, hu]

theorem gives_iff_quiet :
    t.Gives i u ↔ ∃ n v, Quiet n t v ∧ v.step.value = .item i u := by
  constructor
  · rintro ⟨steps, h⟩
    obtain ⟨n, v, -, hq, hv⟩ := quiet_of_answer h
    exact ⟨n, v, hq, hv⟩
  · rintro ⟨n, v, hq, hv⟩
    exact ⟨n + 1, hq.pull_item hv (Nat.lt_succ_self n)⟩

theorem ends_iff_quiet : t.Ends ↔ ∃ n v, Quiet n t v ∧ v.step.value = .ended := by
  constructor
  · rintro ⟨steps, v, h⟩
    obtain ⟨n, -, hq, hv⟩ := quiet_of_ended h
    exact ⟨n, v, hq, hv⟩
  · rintro ⟨n, v, hq, hv⟩
    exact ⟨n + 1, v, hq.pull_ended hv (Nat.lt_succ_self n)⟩

theorem gives_of_item (h : t.step.value = .item i u) : t.Gives i u :=
  gives_iff_quiet.2 ⟨0, t, .refl t, h⟩

theorem ends_of_ended (h : t.step.value = .ended) : t.Ends := ends_iff_quiet.2 ⟨0, t, .refl t, h⟩

/-- More steps find the same item. -/
theorem pull_answer_mono {steps steps' : Nat} (h : (t.pull steps).value = .answer i u)
    (hle : steps ≤ steps') : (t.pull steps').value = .answer i u := by
  obtain ⟨n, v, hlt, hq, hv⟩ := quiet_of_answer h
  exact hq.pull_item hv (Nat.lt_of_lt_of_le hlt hle)

theorem pull_ended_mono {steps steps' : Nat} (h : (t.pull steps).value = .ended u)
    (hle : steps ≤ steps') : (t.pull steps').value = .ended u := by
  obtain ⟨n, hlt, hq, hv⟩ := quiet_of_ended h
  exact hq.pull_ended hv (Nat.lt_of_lt_of_le hlt hle)

/-! ## A pull finds one thing only -/

theorem Gives.deterministic (h : t.Gives i u) (h' : t.Gives j v) : i = j ∧ u = v := by
  obtain ⟨a, ha⟩ := h
  obtain ⟨b, hb⟩ := h'
  have ha' := pull_answer_mono ha (Nat.le_max_left a b)
  have hb' := pull_answer_mono hb (Nat.le_max_right a b)
  rw [ha'] at hb'
  cases hb'
  exact ⟨rfl, rfl⟩

theorem Gives.not_ends (h : t.Gives i u) : ¬t.Ends := by
  rintro ⟨b, v, hb⟩
  obtain ⟨a, ha⟩ := h
  have ha' := pull_answer_mono ha (Nat.le_max_left a b)
  have hb' := pull_ended_mono hb (Nat.le_max_right a b)
  rw [ha'] at hb'
  cases hb'

theorem Nth.deterministic (h : t.Nth n i) (h' : t.Nth n j) : i = j := by
  induction h with
  | zero h =>
    cases h' with
    | zero h' => exact (h.deterministic h').1
  | succ h _ ih =>
    cases h' with
    | succ h' rest' =>
      obtain ⟨-, rfl⟩ := h.deterministic h'
      exact ih rest'

theorem nth_zero_iff : t.Nth 0 i ↔ ∃ u, t.Gives i u := by
  constructor
  · intro h
    cases h with
    | zero h => exact ⟨_, h⟩
  · rintro ⟨u, h⟩
    exact .zero h

theorem Gives.nth_succ_iff (h : t.Gives j u) : t.Nth (n + 1) i ↔ u.Nth n i := by
  constructor
  · intro h'
    cases h' with
    | succ h' rest =>
      obtain ⟨-, rfl⟩ := h.deterministic h'
      exact rest
  · exact .succ h

/-- Where the `n`-th pull finds an item, the first one does. -/
theorem Nth.exists_gives (h : t.Nth n i) : ∃ j u, t.Gives j u := by
  cases h with
  | zero h => exact ⟨_, _, h⟩
  | succ h _ => exact ⟨_, _, h⟩

theorem Nth.not_ends (h : t.Nth n i) : ¬t.Ends := by
  obtain ⟨j, u, hj⟩ := h.exists_gives
  exact hj.not_ends

theorem Unending.rest (h : t.Unending) (hg : t.Gives i u) : u.Unending := by
  intro n
  obtain ⟨j, hj⟩ := h (n + 1)
  exact ⟨j, hg.nth_succ_iff.1 hj⟩

/-! ## What silent steps leave as it is -/

theorem Quiet.gives_iff (h : Quiet n t u) : t.Gives i v ↔ u.Gives i v := by
  constructor
  · rintro ⟨steps, hs⟩
    have := pull_answer_mono hs (Nat.le_add_left steps n)
    rw [h.pull] at this
    exact ⟨steps, this⟩
  · rintro ⟨steps, hs⟩
    exact ⟨n + steps, by rw [h.pull]; exact hs⟩

theorem Quiet.ends_iff (h : Quiet n t u) : t.Ends ↔ u.Ends := by
  constructor
  · rintro ⟨steps, v, hs⟩
    have := pull_ended_mono hs (Nat.le_add_left steps n)
    rw [h.pull] at this
    exact ⟨steps, v, this⟩
  · rintro ⟨steps, v, hs⟩
    exact ⟨n + steps, v, by rw [h.pull]; exact hs⟩

theorem Quiet.nth_iff (h : Quiet n t u) : t.Nth m i ↔ u.Nth m i := by
  cases m with
  | zero => simp only [nth_zero_iff, h.gives_iff]
  | succ m =>
    constructor
    · intro h'
      cases h' with
      | succ hg rest => exact .succ (h.gives_iff.1 hg) rest
    · intro h'
      cases h' with
      | succ hg rest => exact .succ (h.gives_iff.2 hg) rest

/-! ## Responsive streams -/

/-- After its end a stream stays where it is. -/
theorem Pulled.of_ended (h : t.step.value = .ended) (hp : Pulled t u) : u = t := by
  induction hp with
  | refl t => rfl
  | answer ha _ _ => exact absurd (ends_of_ended h) (Gives.not_ends ⟨_, ha⟩)
  | @ended t u v steps he _ ih =>
    obtain ⟨n, -, hq, -⟩ := quiet_of_ended he
    cases hq with
    | refl _ => exact ih h
    | step hs _ => rw [h] at hs; cases hs

/-- An invariant under which a pull returns makes every pull return. -/
theorem Responsive.of_invariant (P : Stream → Prop)
    (hP : ∀ t, P t → t.Ends ∨ ∃ i u, t.Gives i u ∧ P u) (ht : P t) : t.Responsive := by
  intro u hu
  induction hu with
  | refl t =>
    rcases hP t ht with h | ⟨i, u, h, -⟩
    · exact .inl h
    · exact .inr ⟨i, u, h⟩
  | @answer t u v steps i ha _ ih =>
    rcases hP t ht with h | ⟨j, w, h, hw⟩
    · exact absurd h (Gives.not_ends ⟨_, ha⟩)
    · obtain ⟨-, rfl⟩ := Gives.deterministic ⟨_, ha⟩ h
      exact ih hw
  | @ended t u v steps he hrest _ =>
    obtain ⟨n, -, -, hs⟩ := quiet_of_ended he
    rw [hrest.of_ended hs]
    exact .inl (ends_of_ended hs)

theorem Responsive.returns (h : t.Responsive) : t.Returns := h t (.refl t)

theorem Responsive.rest (h : t.Responsive) (hg : t.Gives i u) : u.Responsive := by
  obtain ⟨steps, hs⟩ := hg
  exact fun v hv => h v (.answer hs hv)

theorem responsive_of_ends (h : t.Ends) : t.Responsive := by
  refine .of_invariant Ends (fun u hu => .inl hu) h

theorem Unending.responsive (h : t.Unending) : t.Responsive := by
  refine .of_invariant Unending (fun u hu => ?_) h
  obtain ⟨i, hi⟩ := hu 0
  obtain ⟨v, hv⟩ := nth_zero_iff.1 hi
  exact .inr ⟨i, v, hv, hu.rest hv⟩

theorem once_responsive (i : Item) : (once i).Responsive := by
  refine .of_invariant (fun t => t = .once i ∨ t = .nil) (fun t ht => ?_) (.inl rfl)
  rcases ht with rfl | rfl
  · exact .inr ⟨i, .nil, gives_of_item rfl, .inr rfl⟩
  · exact .inl (ends_of_ended rfl)

/-- The first so many pulls return. -/
def RespondsFor : Nat → Stream → Prop
  | 0, _ => True
  | n + 1, t => t.Ends ∨ ∃ i u, t.Gives i u ∧ RespondsFor n u

theorem Responsive.respondsFor (h : t.Responsive) (n : Nat) : RespondsFor n t := by
  induction n generalizing t with
  | zero => trivial
  | succ n ih =>
    rcases h.returns with he | ⟨i, u, hg⟩
    · exact .inl he
    · exact .inr ⟨i, u, hg, ih (h.rest hg)⟩

theorem responsive_of_respondsFor (h : ∀ n, RespondsFor n t) : t.Responsive := by
  refine .of_invariant (fun t => ∀ n, RespondsFor n t) (fun t ht => ?_) h
  rcases ht 1 with he | ⟨i, u, hg, -⟩
  · exact .inl he
  · refine .inr ⟨i, u, hg, fun n => ?_⟩
    rcases ht (n + 1) with he | ⟨j, v, hg', hv⟩
    · exact absurd he hg.not_ends
    · obtain ⟨-, rfl⟩ := hg.deterministic hg'
      exact hv

theorem RespondsFor.pred (h : RespondsFor (n + 1) t) : RespondsFor n t := by
  induction n generalizing t with
  | zero => trivial
  | succ n ih =>
    rcases h with he | ⟨i, u, hg, hu⟩
    · exact .inl he
    · exact .inr ⟨i, u, hg, ih hu⟩

theorem Quiet.respondsFor_iff (h : Quiet n t u) : RespondsFor m t ↔ RespondsFor m u := by
  cases m with
  | zero => exact Iff.rfl
  | succ m => simp only [RespondsFor, h.ends_iff, h.gives_iff]

theorem Quiet.responsive_iff (h : Quiet n t u) : t.Responsive ↔ u.Responsive :=
  ⟨fun ht => responsive_of_respondsFor fun n => h.respondsFor_iff.1 (ht.respondsFor n),
    fun hu => responsive_of_respondsFor fun n => h.respondsFor_iff.2 (hu.respondsFor n)⟩

end Stream

end Goalbase

import Goalbase.Proofs.Turns
import Mathlib.Logic.Relation

/-!
# Goalbase.Proofs.Serving

No part of a bound stream or of a merge waits for ever.

`Serves goal L o m i` says that the item of origin `o` is the `m`-th one that pulls on a ledger's
stream find. As long as pulls on the parts return, every item that is due is served
(`serves_of_due`): a stream that waits moves up in the queue, and the source has every other turn.
Every item found is served (`exists_serves`), from one origin (`Serves.origin_unique`) and at one
position (`Serves.position_unique`).
-/

namespace Goalbase

namespace Stream

namespace Ledger

/-- The item of the origin is the `m`-th one to be found. -/
inductive Serves (goal : Goal) : Ledger → Origin → Nat → Item → Prop where
  | now {L L' : Ledger} {o : Origin} {i : Item} (h : Turn goal L (some (o, i)) L') :
      Serves goal L o 0 i
  | later {L L' : Ledger} {e : Origin × Item} {o : Origin} {m : Nat} {i : Item}
      (h : Turn goal L (some e) L') (rest : Serves goal L' o m i) : Serves goal L o (m + 1) i
  | quiet {L L' : Ledger} {o : Origin} {m : Nat} {i : Item} (h : Turn goal L none L')
      (rest : Serves goal L' o m i) : Serves goal L o m i

/-- Turns lead from one ledger to the other. -/
def Leads (goal : Goal) : Ledger → Ledger → Prop :=
  Relation.ReflTransGen fun L L' => ∃ a, Turn goal L a L'

/-- Turns that give no item lead from one ledger to the other. -/
def Idles (goal : Goal) : Ledger → Ledger → Prop :=
  Relation.ReflTransGen fun L L' => Turn goal L none L'

variable {goal : Goal} {L L' : Ledger} {o o' : Origin} {i j : Item} {m m' : Nat} {u : Stream}

/-! ## Every item is served once -/

namespace Serves

theorem due (h : Serves goal L o m i) : Due goal L o i := by
  induction h with
  | now h => exact h.due_given
  | later h _ ih => exact h.due_before ih
  | quiet h _ ih => exact h.due_before ih

theorem nth (h : Serves goal L o m i) : (L.stream goal).Nth m i := by
  induction h with
  | now h => exact .zero h.gives
  | later h _ ih => exact .succ h.gives ih
  | quiet h _ ih =>
    obtain ⟨n, hq⟩ := h.silent
    exact hq.nth_iff.2 ih

theorem origin_unique (h : Serves goal L o m i) (h' : Serves goal L o' m j) : o = o' := by
  induction h with
  | now h =>
    cases h' with
    | now h' =>
      cases (h.deterministic h').1
      rfl
    | quiet h' _ => cases (h.deterministic h').1
  | later h _ ih =>
    cases h' with
    | later h' rest' =>
      obtain ⟨-, rfl⟩ := h.deterministic h'
      exact ih rest'
    | quiet h' _ => cases (h.deterministic h').1
  | quiet h _ ih =>
    cases h' with
    | now h' => cases (h.deterministic h').1
    | later h' _ => cases (h.deterministic h').1
    | quiet h' rest' =>
      obtain ⟨-, rfl⟩ := h.deterministic h'
      exact ih rest'

theorem position_unique (hL : L.Tidy) (h : Serves goal L o m i) (h' : Serves goal L o m' j) :
    m = m' := by
  induction h generalizing m' with
  | now h =>
    cases h' with
    | now _ => rfl
    | later h' rest' =>
      obtain ⟨-, rfl⟩ := h.deterministic h'
      exact absurd rest'.due (h.not_due hL)
    | quiet h' _ => cases (h.deterministic h').1
  | later h rest ih =>
    cases h' with
    | now h' =>
      obtain ⟨e, rfl⟩ := h.deterministic h'
      cases e
      exact absurd rest.due (h.not_due hL)
    | later h' rest' =>
      obtain ⟨-, rfl⟩ := h.deterministic h'
      rw [ih (h.tidy hL) rest']
    | quiet h' _ => cases (h.deterministic h').1
  | quiet h _ ih =>
    cases h' with
    | now h' => cases (h.deterministic h').1
    | later h' _ => cases (h.deterministic h').1
    | quiet h' rest' =>
      obtain ⟨-, rfl⟩ := h.deterministic h'
      exact ih (h.tidy hL) rest'

/-- Of an item at position `m`, at most `m` others of its own stream come first. -/
theorem started_le {n k : Nat} (h : Serves goal L (.started n k) m i) (hL : L.Tidy) {e : Entry}
    (he : e ∈ L.started) (hn : e.start = n) : k ≤ e.given + m := by
  generalize ho : Origin.started n k = o at h
  induction h generalizing e with
  | now h =>
    subst ho
    cases h with
    | give _ _ =>
      rcases List.mem_cons.1 he with rfl | he
      · exact Nat.le_refl _
      · exact absurd (List.mem_map.2 ⟨e, he, hn⟩) (List.nodup_cons.1 hL.nodup).1
  | @later L L' _ _ m i h rest ih =>
    have hL' : L'.Tidy := h.tidy hL
    cases h with
    | pass _ _ _ => exact Nat.le_succ_of_le (ih hL' he hn ho)
    | give _ _ =>
      rcases List.mem_cons.1 he with rfl | he
      · have hle := ih hL' (List.mem_append_right _ List.mem_cons_self) hn ho
        dsimp only at hle ⊢
        omega
      · exact Nat.le_succ_of_le (ih hL' (List.mem_append_left _ he) hn ho)
  | @quiet L L' _ m i h rest ih =>
    have hL' : L'.Tidy := h.tidy hL
    cases h with
    | start _ _ _ => exact ih hL' (List.mem_append_left _ he) hn ho
    | close _ _ => exact ih hL' he hn ho
    | @drop source n' k' t q turn hturn hend =>
      rcases List.mem_cons.1 he with rfl | he
      · have hdue := rest.due
        rw [← ho, ← hn] at hdue
        cases hdue with
        | started he' hn' _ _ =>
          exact absurd (List.mem_map.2 ⟨_, he', hn'.symm⟩) (List.nodup_cons.1 hL.nodup).1
        | awaited hsrc hl _ _ _ =>
          have hlt := hL.beyond hsrc ⟨n', k', t⟩ List.mem_cons_self
          omega
      · exact ih hL' he hn ho

end Serves

theorem Leads.serves (h : Leads goal L L') (hs : Serves goal L' o m i) :
    ∃ m', Serves goal L o m' i := by
  induction h using Relation.ReflTransGen.head_induction_on with
  | refl => exact ⟨m, hs⟩
  | head h _ ih =>
    obtain ⟨a, h⟩ := h
    obtain ⟨m', hm'⟩ := ih
    cases a with
    | none => exact ⟨m', .quiet h hm'⟩
    | some e => exact ⟨m' + 1, .later h hm'⟩

theorem Idles.serves (h : Idles goal L L') (hs : Serves goal L' o m i) :
    Serves goal L o m i := by
  induction h using Relation.ReflTransGen.head_induction_on with
  | refl => exact hs
  | head h _ ih => exact .quiet h ih

/-! ## Every item found is served -/

section Prompt

variable (hgoal : ∀ s, (goal.apply s).value.Responsive)

include hgoal

/-- An item found is given by a turn after turns that give nothing. -/
theorem turn_of_gives (hL : L.Prompt) (h : (L.stream goal).Gives i u) :
    ∃ L₁ o L₂, Idles goal L L₁ ∧ Turn goal L₁ (some (o, i)) L₂ ∧ u = L₂.stream goal
      ∧ L₂.Prompt := by
  obtain ⟨steps, h⟩ := h
  induction steps using Nat.strongRecOn generalizing L with
  | ind steps ih =>
    rcases hL.exists_turn goal with hend | ⟨a, L', hturn⟩
    · exact absurd (hend.ends goal) (Gives.not_ends ⟨steps, h⟩)
    · cases a with
      | some e =>
        obtain ⟨o, j⟩ := e
        obtain ⟨rfl, rfl⟩ := Gives.deterministic ⟨steps, h⟩ hturn.gives
        exact ⟨L, o, L', .refl, hturn, rfl, hturn.prompt hgoal hL⟩
      | none =>
        obtain ⟨n, hq⟩ := hturn.silent
        obtain ⟨k, rfl, hk⟩ := hq.pull_rest (fun v h' => by rw [h] at h'; cases h')
        rw [h] at hk
        obtain ⟨L₁, o, L₂, hidle, hgive, hu, hL₂⟩ := ih k (by omega) (hturn.prompt hgoal hL) hk.symm
        exact ⟨L₁, o, L₂, .head hturn hidle, hgive, hu, hL₂⟩

theorem exists_serves (hL : L.Prompt) (h : (L.stream goal).Nth m i) :
    ∃ o, Serves goal L o m i := by
  induction m generalizing L with
  | zero =>
    obtain ⟨u, hu⟩ := nth_zero_iff.1 h
    obtain ⟨L₁, o, L₂, hidle, hgive, -, -⟩ := turn_of_gives hgoal hL hu
    exact ⟨o, hidle.serves (.now hgive)⟩
  | succ m ih =>
    cases h with
    | succ hu rest =>
      obtain ⟨L₁, o, L₂, hidle, hgive, rfl, hL₂⟩ := turn_of_gives hgoal hL hu
      obtain ⟨o', ho'⟩ := ih hL₂ rest
      exact ⟨o', hidle.serves (.later hgive ho')⟩

/-! ## Every item that is due is served -/

/-- The streams started get their turn. -/
theorem exists_started_turn (hL : L.Prompt) :
    ∃ L', Leads goal L L' ∧ L'.Prompt ∧ (L'.sourceNext = false ∨ L'.source = none)
      ∧ ∃ new, L'.started = L.started ++ new := by
  obtain ⟨source, q, turn⟩ := L
  cases source with
  | none => exact ⟨_, .refl, hL, .inr rfl, [], (List.append_nil q).symm⟩
  | some p =>
    obtain ⟨n, src⟩ := p
    cases turn with
    | false => exact ⟨_, .refl, hL, .inl rfl, [], (List.append_nil q).symm⟩
    | true =>
      have hstep : ∀ a L', Turn goal ⟨some (n, src), q, true⟩ a L' → L'.Prompt :=
        fun a L' h => h.prompt hgoal hL
      rcases (hL.source rfl).returns with he | ⟨i, u, hg⟩
      · have hturn : Turn goal ⟨some (n, src), q, true⟩ none _ := .close (.inl rfl) he
        exact ⟨_, .single ⟨_, hturn⟩, hstep _ _ hturn, .inl rfl, [], (List.append_nil q).symm⟩
      · cases hi : success? i with
        | none =>
          have hturn : Turn goal ⟨some (n, src), q, true⟩ _ _ := .pass (.inl rfl) hg hi
          exact ⟨_, .single ⟨_, hturn⟩, hstep _ _ hturn, .inl rfl, [], (List.append_nil q).symm⟩
        | some s =>
          obtain ⟨rfl, hs⟩ := success?_eq_some.1 hi
          have hturn : Turn goal ⟨some (n, src), q, true⟩ _ _ := .start (.inl rfl) hg hs
          exact ⟨_, .single ⟨_, hturn⟩, hstep _ _ hturn, .inl rfl, _, rfl⟩

/-- The source gets its turn. -/
theorem exists_source_turn (hL : L.Prompt) {n : Nat} {src : Stream}
    (hs : L.source = some (n, src)) :
    ∃ L', Leads goal L L' ∧ L'.Prompt ∧ L'.source = some (n, src)
      ∧ (L'.sourceNext = true ∨ L'.started = []) := by
  obtain ⟨source, q, turn⟩ := L
  cases hs
  cases q with
  | nil => exact ⟨_, .refl, hL, rfl, .inr rfl⟩
  | cons e q =>
    cases turn with
    | true => exact ⟨_, .refl, hL, rfl, .inl rfl⟩
    | false =>
      rcases (hL.started e List.mem_cons_self).returns with he | ⟨i, u, hg⟩
      · have hturn : Turn goal ⟨some (n, src), e :: q, false⟩ _ _ := .drop (.inl rfl) he
        exact ⟨_, .single ⟨_, hturn⟩, hturn.prompt hgoal hL, rfl, .inl rfl⟩
      · have hturn : Turn goal ⟨some (n, src), e :: q, false⟩ _ _ := .give (.inl rfl) hg
        exact ⟨_, .single ⟨_, hturn⟩, hturn.prompt hgoal hL, rfl, .inl rfl⟩

/-- By induction on how many items of its own stream come before it, and then on the streams that
stand before that stream in the queue. -/
theorem serves_started (hL : L.Prompt) {d : Nat} {e : Entry} {pre post : List Entry}
    (hq : L.started = pre ++ e :: post) (h : e.stream.Nth d i) :
    ∃ m, Serves goal L (.started e.start (e.given + d)) m i := by
  induction d using Nat.strongRecOn generalizing L e pre post with
  | ind d ih =>
    induction pre generalizing L post with
    | nil =>
      obtain ⟨L', hlead, hL', hturn, new, hnew⟩ := exists_started_turn hgoal hL
      rw [hq] at hnew
      obtain ⟨source, q, turn⟩ := L'
      cases hnew
      cases h with
      | zero hg => exact hlead.serves (.now (.give hturn hg))
      | @succ _ u _ _ d hg rest =>
        have hgive : Turn goal ⟨source, e :: (post ++ new), turn⟩ _ _ := .give hturn hg
        obtain ⟨m, hm⟩ := ih d (Nat.lt_succ_self d) (hgive.prompt hgoal hL') rfl rest
        rw [Nat.add_right_comm] at hm
        exact hlead.serves (.later hgive hm)
    | cons e₀ pre ihpre =>
      obtain ⟨L', hlead, hL', hturn, new, hnew⟩ := exists_started_turn hgoal hL
      rw [hq] at hnew
      obtain ⟨source, q, turn⟩ := L'
      simp only [List.cons_append, List.append_assoc] at hnew
      cases hnew
      rcases (hL'.started e₀ List.mem_cons_self).returns with he | ⟨j, u, hg⟩
      · have hdrop : Turn goal ⟨source, e₀ :: (pre ++ (e :: (post ++ new))), turn⟩ _ _ :=
          .drop hturn he
        obtain ⟨m, hm⟩ := ihpre (hdrop.prompt hgoal hL') rfl
        exact hlead.serves (.quiet hdrop hm)
      · have hgive : Turn goal ⟨source, e₀ :: (pre ++ (e :: (post ++ new))), turn⟩ _ _ :=
          .give hturn hg
        obtain ⟨m, hm⟩ := ihpre (hgive.prompt hgoal hL')
          (List.append_assoc pre (e :: (post ++ new)) _)
        exact hlead.serves (.later hgive hm)

/-- The source comes to any of its items, by induction on how many items come before it. -/
theorem exists_source_at (hL : L.Prompt) {n d : Nat} {src : Stream} (hs : L.source = some (n, src))
    (h : src.Nth d i) :
    ∃ L' src' u, Leads goal L L' ∧ L'.Prompt ∧ L'.source = some (n + d, src')
      ∧ (L'.sourceNext = true ∨ L'.started = []) ∧ src'.Gives i u := by
  induction d generalizing L n src with
  | zero =>
    obtain ⟨u, hu⟩ := nth_zero_iff.1 h
    obtain ⟨L', hlead, hL', hs', hturn⟩ := exists_source_turn hgoal hL hs
    exact ⟨L', src, u, hlead, hL', hs', hturn, hu⟩
  | succ d ih =>
    cases h with
    | @succ _ u _ j _ hg rest =>
      obtain ⟨L', hlead, hL', hs', hturn⟩ := exists_source_turn hgoal hL hs
      obtain ⟨a, L'', hstep, hs''⟩ : ∃ a L'', Turn goal L' a L'' ∧ L''.source = some (n + 1, u) := by
        obtain ⟨source, q, turn⟩ := L'
        cases hs'
        cases hj : success? j with
        | none => exact ⟨_, _, .pass hturn hg hj, rfl⟩
        | some s =>
          obtain ⟨rfl, hlive⟩ := success?_eq_some.1 hj
          exact ⟨_, _, .start hturn hg hlive, rfl⟩
      obtain ⟨L₁, src', v, hlead', hL₁, hs₁, hturn₁, hv⟩ := ih (hstep.prompt hgoal hL') hs'' rest
      rw [Nat.add_right_comm] at hs₁
      exact ⟨L₁, src', v, (hlead.tail ⟨a, hstep⟩).trans hlead', hL₁, hs₁, hturn₁, hv⟩

theorem serves_of_due (hL : L.Prompt) (h : Due goal L o i) : ∃ m, Serves goal L o m i := by
  cases h with
  | source hs hk hn hi =>
    obtain ⟨L', src', u, hlead, -, hs', hturn, hu⟩ := exists_source_at hgoal hL hs hn
    obtain ⟨source, q, turn⟩ := L'
    cases hs'
    rw [hk]
    exact hlead.serves (.now (.pass hturn hu hi))
  | started he hn hk h =>
    obtain ⟨pre, post, hq⟩ := List.append_of_mem he
    rw [hn, hk]
    exact serves_started hgoal hL hq h
  | @awaited n d l k src s i hs hl hn hlive h =>
    obtain ⟨L', src', u, hlead, hL', hs', hturn, hu⟩ := exists_source_at hgoal hL hs hn
    obtain ⟨source, q, turn⟩ := L'
    cases hs'
    have hstart : Turn goal ⟨some (n + d, src'), q, turn⟩ _ _ := .start hturn hu hlive
    obtain ⟨m, hm⟩ := serves_started hgoal (hstart.prompt hgoal hL') rfl h
    rw [Nat.zero_add] at hm
    rw [hl]
    exact hlead.serves (.quiet hstart hm)

end Prompt

end Ledger

end Stream

end Goalbase

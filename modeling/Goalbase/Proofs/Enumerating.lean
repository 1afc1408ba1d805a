import Goalbase.Proofs.Serving

/-!
# Goalbase.Proofs.Enumerating

What merged and bound streams enumerate.

`t.Enumerates F` says that the items of `t` are those of a family `F`, each at one position of its
own. A bound stream enumerates what passes of its source and what the goal makes of the source's
states (`bind_enumerates`), and a merge the items of its streams (`merge_enumerates`): it serves its
queue as a bound stream without a source does (`merge_nth_iff`). Merges of responsive streams are
responsive (`merge_responsive`).
-/

namespace Goalbase

namespace Stream

/-! ## Enumerations -/

section Enumerations

variable {α β : Type} {F : α → Item → Prop} {place : α → Nat} {t u : Stream} {n : Nat}

/-- The items of the stream are those of the family, each at the position that is its own. -/
structure EnumeratesAt (t : Stream) (F : α → Item → Prop) (place : α → Nat) : Prop where
  found : ∀ a i, F a i → t.Nth (place a) i
  unique : ∀ n i, t.Nth n i → ∃! a, F a i ∧ place a = n

/-- The items of the stream are those of the family, each at a position of its own. -/
def Enumerates (t : Stream) (F : α → Item → Prop) : Prop :=
  ∃ place : α → Nat, EnumeratesAt t F place

theorem EnumeratesAt.of_quiet (hq : Quiet n t u) (h : EnumeratesAt u F place) :
    EnumeratesAt t F place :=
  ⟨fun a i ha => hq.nth_iff.2 (h.found a i ha), fun n i hn => h.unique n i (hq.nth_iff.1 hn)⟩

theorem Enumerates.of_quiet (hq : Quiet n t u) (h : u.Enumerates F) : t.Enumerates F := by
  obtain ⟨place, hplace⟩ := h
  exact ⟨place, hplace.of_quiet hq⟩

/-- Another family is enumerated when each of its members stands for one of the first family and
each of the first family is stood for by exactly one. -/
theorem EnumeratesAt.refine {G : β → Item → Prop} (h : EnumeratesAt t F place) (r : β → α)
    (hr : ∀ b i, G b i → F (r b) i) (hunique : ∀ a i, F a i → ∃! b, G b i ∧ r b = a) :
    EnumeratesAt t G (fun b => place (r b)) := by
  refine ⟨fun b i hb => h.found _ i (hr b i hb), fun n i hn => ?_⟩
  obtain ⟨a, ⟨ha, hna⟩, honly⟩ := h.unique n i hn
  obtain ⟨b, ⟨hb, hba⟩, hbonly⟩ := hunique a i ha
  refine ⟨b, ⟨hb, (congrArg place hba).trans hna⟩, fun b' hb' => ?_⟩
  exact hbonly b' ⟨hb'.1, honly _ ⟨hr b' i hb'.1, hb'.2⟩⟩

theorem Enumerates.refine {G : β → Item → Prop} (h : t.Enumerates F) (r : β → α)
    (hr : ∀ b i, G b i → F (r b) i) (hunique : ∀ a i, F a i → ∃! b, G b i ∧ r b = a) :
    t.Enumerates G := by
  obtain ⟨place, hplace⟩ := h
  exact ⟨fun b => place (r b), hplace.refine r hr hunique⟩

end Enumerations

namespace Ledger

variable {goal : Goal} {L : Ledger}

/-- Where everything that is due is served. -/
theorem exists_place (hgoal : ∀ s, (goal.apply s).value.Responsive) (hL : L.Prompt)
    (htidy : L.Tidy) :
    ∃ place : Origin → Nat, ∀ o i m, Due goal L o i → (Serves goal L o m i ↔ m = place o) := by
  have hchoice : ∀ o, ∃ n, ∀ i m, Due goal L o i → (Serves goal L o m i ↔ m = n) := by
    intro o
    by_cases hdue : ∃ i, Due goal L o i
    · obtain ⟨i, hi⟩ := hdue
      obtain ⟨n, hn⟩ := serves_of_due hgoal hL hi
      refine ⟨n, fun j m hj => ⟨fun hm => hm.position_unique htidy hn, ?_⟩⟩
      rintro rfl
      obtain ⟨m, hm⟩ := serves_of_due hgoal hL hj
      rwa [← hm.position_unique htidy hn]
    · exact ⟨0, fun i m hi => absurd ⟨i, hi⟩ hdue⟩
  exact Classical.skolem.1 hchoice

theorem enumeratesAt (hgoal : ∀ s, (goal.apply s).value.Responsive) (hL : L.Prompt)
    {place : Origin → Nat} (h : ∀ o i m, Due goal L o i → (Serves goal L o m i ↔ m = place o)) :
    EnumeratesAt (L.stream goal) (Due goal L) place := by
  refine ⟨fun o i ho => ((h o i _ ho).2 rfl).nth, fun n i hn => ?_⟩
  obtain ⟨o, ho⟩ := exists_serves hgoal hL hn
  refine ⟨o, ⟨ho.due, ((h o i n ho.due).1 ho).symm⟩, fun o' ho' => ?_⟩
  exact ((h o' i n ho'.1).2 ho'.2.symm).origin_unique ho

theorem enumerates (hgoal : ∀ s, (goal.apply s).value.Responsive) (hL : L.Prompt)
    (htidy : L.Tidy) : (L.stream goal).Enumerates (Due goal L) := by
  obtain ⟨place, hplace⟩ := exists_place hgoal hL htidy
  exact ⟨place, enumeratesAt hgoal hL hplace⟩

/-- A bound stream before the first pull. -/
def ofSource (source : Stream) : Ledger := ⟨some (0, source), [], true⟩

theorem tidy_ofSource (source : Stream) : (ofSource source).Tidy :=
  ⟨.nil, fun _ e he => by cases he⟩

theorem prompt_ofSource {source : Stream} (h : source.Responsive) : (ofSource source).Prompt := by
  refine ⟨fun {n src} hsrc => ?_, fun e he => by cases he⟩
  cases hsrc
  exact h

/-- The streams of a merge before the first pull. -/
def ofQueue (queue : List Stream) : Ledger := ⟨none, queue.mapIdx fun n t => ⟨n, 0, t⟩, false⟩

theorem mem_ofQueue {queue : List Stream} {e : Entry} :
    e ∈ (ofQueue queue).started ↔ ∃ n t, queue[n]? = some t ∧ e = ⟨n, 0, t⟩ := by
  simp only [ofQueue, List.mem_mapIdx, List.getElem?_eq_some_iff]
  constructor
  · rintro ⟨n, hn, rfl⟩
    exact ⟨n, queue[n], ⟨hn, rfl⟩, rfl⟩
  · rintro ⟨n, t, ⟨hn, rfl⟩, rfl⟩
    exact ⟨n, hn, rfl⟩

theorem stream_ofQueue (goal : Goal) (queue : List Stream) :
    (ofQueue queue).stream goal = .bound none goal queue false := by
  have hmap : (queue.mapIdx fun n t => (⟨n, 0, t⟩ : Entry)).map Entry.stream = queue := by
    exact List.ext_getElem (by simp) (by simp)
  rw [ofQueue, stream, hmap]
  rfl

theorem tidy_ofQueue (queue : List Stream) : (ofQueue queue).Tidy := by
  refine ⟨?_, fun h => by cases h⟩
  have hstarts : (ofQueue queue).started.map Entry.start = List.range queue.length := by
    exact List.ext_getElem (by simp [ofQueue]) (by simp [ofQueue])
  rw [hstarts]
  exact List.nodup_range

theorem prompt_ofQueue {queue : List Stream} (h : ∀ t ∈ queue, t.Responsive) :
    (ofQueue queue).Prompt := by
  refine ⟨fun hsrc => (by cases hsrc), fun e he => ?_⟩
  obtain ⟨n, t, ht, rfl⟩ := mem_ofQueue.1 he
  exact h t (List.mem_of_getElem? ht)

theorem due_ofQueue {queue : List Stream} {o : Origin} {i : Item} :
    Due goal (ofQueue queue) o i ↔
      ∃ n k t, o = .started n k ∧ queue[n]? = some t ∧ t.Nth k i := by
  constructor
  · intro h
    cases h with
    | source hs _ _ _ => cases hs
    | started he hn hk h =>
      obtain ⟨n, t, ht, rfl⟩ := mem_ofQueue.1 he
      dsimp only at hn hk
      rw [Nat.zero_add] at hk
      rw [hn, hk]
      exact ⟨_, _, t, rfl, ht, h⟩
    | awaited hs _ _ _ _ => cases hs
  · rintro ⟨n, k, t, rfl, ht, h⟩
    exact .started (mem_ofQueue.2 ⟨n, t, ht, rfl⟩) rfl (Nat.zero_add k).symm h

end Ledger

/-! ## Merging -/

section Merge

variable {t u : Stream} {i : Item} {n : Nat} {queue : List Stream}

theorem Quiet.merge_front (hq : Quiet n t u) :
    Quiet n (.merge (t :: queue)) (.merge (u :: queue)) := by
  induction hq with
  | refl t => exact .refl _
  | @step t u v n hs _ ih =>
    have hstep : (Stream.merge (t :: queue)).step.value = mergeStep queue t.step.value := rfl
    rw [hs] at hstep
    exact .step hstep ih

theorem gives_merge (hg : t.Gives i u) :
    (merge (t :: queue)).Gives i (.merge (queue ++ [u])) := by
  obtain ⟨n, v, hq, hv⟩ := gives_iff_quiet.1 hg
  have hstep : (Stream.merge (v :: queue)).step.value = mergeStep queue v.step.value := rfl
  rw [hv] at hstep
  exact gives_iff_quiet.2 ⟨n, _, hq.merge_front, hstep⟩

theorem quiet_merge_ended (he : t.Ends) :
    ∃ n, Quiet (n + 1) (.merge (t :: queue)) (.merge queue) := by
  obtain ⟨n, v, hq, hv⟩ := ends_iff_quiet.1 he
  have hstep : (Stream.merge (v :: queue)).step.value = mergeStep queue v.step.value := rfl
  rw [hv] at hstep
  exact ⟨n, hq.merge_front.trans (.single hstep)⟩

theorem merge_respondsFor (h : ∀ t ∈ queue, RespondsFor n t) : RespondsFor n (merge queue) := by
  induction n generalizing queue with
  | zero => trivial
  | succ n ih =>
    induction queue with
    | nil => exact .inl (ends_of_ended rfl)
    | cons t q ihq =>
      have hq : ∀ t ∈ q, RespondsFor (n + 1) t := fun t' ht' => h t' (List.mem_cons_of_mem _ ht')
      rcases h t List.mem_cons_self with he | ⟨i, u, hg, hu⟩
      · obtain ⟨m, hquiet⟩ : ∃ m, Quiet (m + 1) (.merge (t :: q)) (.merge q) :=
          quiet_merge_ended he
        exact hquiet.respondsFor_iff.2 (ihq hq)
      · refine .inr ⟨i, _, gives_merge hg, ih fun t' ht' => ?_⟩
        rcases List.mem_append.1 ht' with ht' | ht'
        · exact (hq t' ht').pred
        · rw [List.mem_singleton.1 ht']
          exact hu

theorem merge_responsive (h : ∀ t ∈ queue, t.Responsive) : (merge queue).Responsive :=
  responsive_of_respondsFor fun n => merge_respondsFor fun t ht => (h t ht).respondsFor n

/-- A merge finds what a bound stream without a source finds in its queue. -/
theorem merge_nth_iff (goal : Goal) (turn : Bool) (h : ∀ t ∈ queue, t.Responsive) :
    (merge queue).Nth n i ↔ (bound none goal queue turn).Nth n i := by
  induction n using Nat.strongRecOn generalizing queue turn with
  | ind n ih =>
    induction queue generalizing turn with
    | nil =>
      have hend : (bound none goal [] turn).Ends := ends_of_ended rfl
      exact ⟨fun hn => absurd (ends_of_ended rfl) hn.not_ends, fun hn => absurd hend hn.not_ends⟩
    | cons t q ihq =>
      have hq : ∀ t ∈ q, t.Responsive := fun t' ht' => h t' (List.mem_cons_of_mem _ ht')
      rcases (h t List.mem_cons_self).returns with he | ⟨j, u, hg⟩
      · obtain ⟨a, ha⟩ : ∃ a, Quiet (a + 1) (.merge (t :: q)) (.merge q) := quiet_merge_ended he
        obtain ⟨b, hb⟩ : ∃ b, Quiet (b + 1) (.bound none goal (t :: q) turn)
            (.bound none goal q true) := quiet_started_ended (.inr rfl) he
        rw [ha.nth_iff, hb.nth_iff]
        exact ihq true hq
      · have hm : (merge (t :: q)).Gives j (.merge (q ++ [u])) := gives_merge hg
        have hb : (bound none goal (t :: q) turn).Gives j (.bound none goal (q ++ [u]) true) :=
          gives_started (.inr rfl) hg
        cases n with
        | zero =>
          simp only [nth_zero_iff]
          constructor
          · rintro ⟨v, hv⟩
            rw [(hv.deterministic hm).1]
            exact ⟨_, hb⟩
          · rintro ⟨v, hv⟩
            rw [(hv.deterministic hb).1]
            exact ⟨_, hm⟩
        | succ n =>
          rw [hm.nth_succ_iff, hb.nth_succ_iff]
          refine ih n (Nat.lt_succ_self n) true fun t' ht' => ?_
          rcases List.mem_append.1 ht' with ht' | ht'
          · exact hq t' ht'
          · rw [List.mem_singleton.1 ht']
            exact (h t List.mem_cons_self).rest hg

/-- What comes behind the first stream of a merge comes later than in its own stream, if the first
stream has an item. -/
theorem Ledger.Serves.ofQueue_lt {goal : Goal} {j k : Nat} {i' : Item} (ht : t.Gives i u)
    (h : Serves goal (ofQueue (t :: queue)) (.started (j + 1) k) n i') : k < n := by
  obtain ⟨t', ht'⟩ : ∃ t', queue[j]? = some t' := by
    obtain ⟨n', k', t', ho, ht', -⟩ := due_ofQueue.1 h.due
    cases ho
    exact ⟨t', ht'⟩
  let rest : List Entry := queue.mapIdx fun n t => ⟨n + 1, 0, t⟩
  have hsplit : ofQueue (t :: queue) = ⟨none, ⟨0, 0, t⟩ :: rest, false⟩ := by
    rw [ofQueue, List.mapIdx_cons]
  have hmem : (⟨j + 1, 0, t'⟩ : Entry) ∈ rest := by
    obtain ⟨hj, rfl⟩ := List.getElem?_eq_some_iff.1 ht'
    exact List.mem_mapIdx.2 ⟨j, hj, rfl⟩
  have hturn : Turn goal ⟨none, ⟨0, 0, t⟩ :: rest, false⟩ _ _ := .give (.inr rfl) ht
  have htidy := tidy_ofQueue (t :: queue)
  rw [hsplit] at h htidy
  cases h with
  | now h => cases (h.deterministic hturn).1
  | quiet h _ => cases (h.deterministic hturn).1
  | later h later =>
    obtain ⟨-, rfl⟩ := h.deterministic hturn
    have hle := later.started_le (hturn.tidy htidy) (List.mem_append_left _ hmem) rfl
    dsimp only at hle
    omega

/-- A merge enumerates the items of its streams. What comes behind a first stream that has an item
comes later than in its own stream. -/
theorem exists_merge_place (h : ∀ t ∈ queue, t.Responsive) :
    ∃ place : Nat × Nat → Nat,
      EnumeratesAt (merge queue) (fun p i => ∃ t, queue[p.1]? = some t ∧ t.Nth p.2 i) place
      ∧ ∀ t rest i u, queue = t :: rest → t.Gives i u →
        ∀ j k t' i', rest[j]? = some t' → t'.Nth k i' → k < place (j + 1, k) := by
  have hgoal : ∀ s, (Goal.fail.apply s).value.Responsive := fun _ => once_responsive none
  have hprompt := Ledger.prompt_ofQueue h
  obtain ⟨place, hplace⟩ := Ledger.exists_place hgoal hprompt (Ledger.tidy_ofQueue queue)
  have hat := Ledger.enumeratesAt hgoal hprompt hplace
  rw [Ledger.stream_ofQueue] at hat
  refine ⟨fun p => place (.started p.1 p.2), ⟨fun p i hp => ?_, fun n i hn => ?_⟩, ?_⟩
  · obtain ⟨t, ht, hi⟩ := hp
    exact (merge_nth_iff _ _ h).2 (hat.found _ i (Ledger.due_ofQueue.2 ⟨_, _, t, rfl, ht, hi⟩))
  · obtain ⟨o, ⟨ho, hno⟩, honly⟩ := hat.unique n i ((merge_nth_iff _ _ h).1 hn)
    obtain ⟨j, k, t, rfl, ht, hi⟩ := Ledger.due_ofQueue.1 ho
    refine ⟨(j, k), ⟨⟨t, ht, hi⟩, hno⟩, ?_⟩
    rintro ⟨j', k'⟩ ⟨⟨t', ht', hi'⟩, hn'⟩
    cases honly _ ⟨Ledger.due_ofQueue.2 ⟨_, _, t', rfl, ht', hi'⟩, hn'⟩
    rfl
  · rintro t rest i u rfl ht j k t' i' ht' hi'
    have hdue : Ledger.Due .fail (Ledger.ofQueue (t :: rest)) (.started (j + 1) k) i' :=
      Ledger.due_ofQueue.2 ⟨_, _, t', rfl, ht', hi'⟩
    exact ((hplace _ i' _ hdue).2 rfl).ofQueue_lt ht

/-- If its streams enumerate families, a merge enumerates them all. -/
theorem merge_enumerates {α : Type} {F : Nat → α → Item → Prop}
    (h : ∀ t ∈ queue, t.Responsive)
    (hF : ∀ (j : Nat) (t : Stream), queue[j]? = some t → t.Enumerates (F j)) :
    (merge queue).Enumerates fun (p : Nat × α) i => p.1 < queue.length ∧ F p.1 p.2 i := by
  obtain ⟨place, hplace, -⟩ := exists_merge_place h
  have hchoice : ∀ j, ∃ own : α → Nat, ∀ t, queue[j]? = some t → EnumeratesAt t (F j) own := by
    intro j
    cases ht : queue[j]? with
    | none => exact ⟨fun _ => 0, fun t h => by cases h⟩
    | some t =>
      obtain ⟨own, hown⟩ := hF j t ht
      exact ⟨own, fun t' h => by cases h; exact hown⟩
  choose own hown using hchoice
  refine Enumerates.refine ⟨place, hplace⟩ (fun p => (p.1, own p.1 p.2)) ?_ ?_
  · rintro ⟨j, a⟩ i ⟨hj, ha⟩
    have ht := List.getElem?_eq_getElem hj
    exact ⟨_, ht, (hown j _ ht).found a i ha⟩
  · rintro ⟨j, k⟩ i ⟨t, ht, hi⟩
    obtain ⟨a, ⟨ha, rfl⟩, honly⟩ := (hown j t ht).unique k i hi
    refine ⟨(j, a), ⟨⟨(List.getElem?_eq_some_iff.1 ht).1, ha⟩, rfl⟩, ?_⟩
    rintro ⟨j', a'⟩ ⟨⟨-, ha'⟩, he⟩
    obtain ⟨rfl, he⟩ := Prod.mk.inj he
    rw [honly a' ⟨ha', he⟩]

end Merge

/-! ## Binding -/

section Bind

variable {α β : Type} {src : Stream} {goal : Goal}

/-- What passes of a source's items, and what a goal makes of the source's live states. -/
inductive Joined (F : α → Item → Prop) (G : State → β → Item → Prop) : α ⊕ α × β → Item → Prop where
  | passed {a : α} {i : Item} (h : F a i) (hi : success? i = none) : Joined F G (.inl a) i
  | followed {a : α} {b : β} {s : State} {i : Item} (h : F a (some s)) (hs : s.isFaulted = false)
      (h' : G s b i) : Joined F G (.inr (a, b)) i

/-- Where an item that a bound stream finds comes from. -/
def Origin.part : Origin → Nat ⊕ Nat × Nat
  | .source n => .inl n
  | .started n k => .inr (n, k)

theorem Ledger.due_ofSource {o : Origin} {i : Item} :
    Due goal (ofSource src) o i ↔
      Joined (fun n => src.Nth n) (fun s k => (goal.apply s).value.Nth k) o.part i := by
  constructor
  · intro h
    cases h with
    | source hsrc hk h hi =>
      cases hsrc
      rw [Nat.zero_add] at hk
      rw [hk]
      exact .passed h hi
    | started he _ _ _ => cases he
    | awaited hsrc hl h hs h' =>
      cases hsrc
      rw [Nat.zero_add] at hl
      rw [hl]
      exact .followed h hs h'
  · intro h
    cases o with
    | source n =>
      cases h with
      | passed h hi => exact .source rfl (Nat.zero_add n).symm h hi
    | started n k =>
      cases h with
      | followed h hs h' => exact .awaited rfl (Nat.zero_add n).symm h hs h'

/-- A bound stream enumerates what passes of its source and the items of the goal's streams. -/
theorem bind_nth_enumerates (hsrc : src.Responsive)
    (hgoal : ∀ s, (goal.apply s).value.Responsive) :
    (src.bind goal).Enumerates
      (Joined (fun n => src.Nth n) (fun s k => (goal.apply s).value.Nth k)) := by
  have hsource := Ledger.enumerates hgoal (Ledger.prompt_ofSource hsrc) (Ledger.tidy_ofSource src)
  refine hsource.refine (fun | .inl n => .source n | .inr (n, k) => .started n k) ?_ ?_
  · rintro (n | ⟨n, k⟩) i h
    · exact Ledger.due_ofSource.2 h
    · exact Ledger.due_ofSource.2 h
  · intro o i h
    refine ⟨o.part, ⟨Ledger.due_ofSource.1 h, by cases o <;> rfl⟩, ?_⟩
    rintro (n | ⟨n, k⟩) ⟨-, rfl⟩
    · rfl
    · rfl

/-- If the source and the goal enumerate families, a bound stream enumerates both joined. -/
theorem bind_enumerates {F : α → Item → Prop} {G : State → β → Item → Prop}
    (hsrc : src.Responsive) (hgoal : ∀ s, (goal.apply s).value.Responsive)
    (hF : src.Enumerates F) (hG : ∀ s, (goal.apply s).value.Enumerates (G s)) :
    (src.bind goal).Enumerates (Joined F G) := by
  obtain ⟨first, hfirst⟩ := hF
  have hsecond : ∀ s, ∃ place : β → Nat, EnumeratesAt (goal.apply s).value (G s) place := hG
  choose second hsecond using hsecond
  -- where the goal's items stand depends on the state, which the source's member determines
  have hchoice : ∀ a, ∃ own : β → Nat, ∀ s, F a (some s) → own = second s := by
    intro a
    by_cases ha : ∃ s, F a (some s)
    · obtain ⟨s, hs⟩ := ha
      refine ⟨second s, fun s' hs' => ?_⟩
      cases (hfirst.found a _ hs).deterministic (hfirst.found a _ hs')
      rfl
    · exact ⟨fun _ => 0, fun s hs => absurd ⟨s, hs⟩ ha⟩
  choose own hown using hchoice
  refine (bind_nth_enumerates hsrc hgoal).refine
    (Sum.map first fun p => (first p.1, own p.1 p.2)) ?_ ?_
  · intro o i h
    cases h with
    | passed h hi => exact .passed (hfirst.found _ i h) hi
    | @followed a b s i h hs h' =>
      have hi := (hsecond s).found b i h'
      rw [← hown a s h] at hi
      exact .followed (hfirst.found a _ h) hs hi
  · intro o i h
    cases h with
    | @passed n i h hi =>
      obtain ⟨a, ⟨ha, rfl⟩, honly⟩ := hfirst.unique n i h
      refine ⟨.inl a, ⟨.passed ha hi, rfl⟩, ?_⟩
      rintro (a' | p) ⟨h', he⟩
      · cases h' with
        | passed ha' _ => rw [honly a' ⟨ha', Sum.inl.inj he⟩]
      · cases he
    | @followed n k s i h hs h' =>
      obtain ⟨a, ⟨ha, rfl⟩, honly⟩ := hfirst.unique n _ h
      obtain ⟨b, ⟨hb, rfl⟩, honly'⟩ := (hsecond s).unique k i h'
      refine ⟨.inr (a, b), ⟨.followed ha hs hb, ?_⟩, ?_⟩
      · rw [← hown a s ha]
        rfl
      · rintro (a' | ⟨a', b'⟩) ⟨h', he⟩
        · cases he
        · cases h' with
          | @followed _ _ s' _ ha' hs' hb' =>
            obtain ⟨hfst, hsnd⟩ := Prod.mk.inj (Sum.inr.inj he)
            dsimp only at hfst hsnd
            have hnth := hfirst.found a' _ ha'
            rw [hfst] at hnth
            cases hnth.deterministic h
            obtain rfl := honly a' ⟨ha', hfst⟩
            rw [hown a' s ha] at hsnd
            rw [honly' b' ⟨hb', hsnd⟩]

end Bind

end Stream

end Goalbase

import Goalbase.Proofs.Converting
import Goalbase.Proofs.Reaching
import Goalbase.Proofs.Rounds

/-!
# Goalbase.Proofs.Admitting

Membership in a list of literals.

`oneOf x list` tries the literals of the list one by one, each of several equal ones where it stands
first. A disjunction of goals that have one item each gives these in the order of the goals, for the
round-robin is over after its first round (`Goal.or_yields_each`). So what remains is what
unification with one literal does: a variable with a value accepts a literal that is equal to it,
and any other one takes the literals that the kind at the end of its chain admits
(`oneOf_decides`).
-/

namespace Goalbase

/-! ## Literals without repetitions -/

namespace Literal

/-- What holds of a list behind its first literal, less all that equal it, holds of the list. -/
theorem distinct_induction {P : List Literal → Prop} (nil : P [])
    (cons : ∀ a list, P (list.filter fun b => b.same a = false) → P (a :: list))
    (list : List Literal) : P list := by
  induction hn : list.length using Nat.strongRecOn generalizing list with
  | ind n ih =>
    cases list with
    | nil => exact nil
    | cons a list =>
      have hle := List.length_filter_le (fun b : Literal => decide (b.same a = false)) list
      rw [List.length_cons] at hn
      exact cons a list (ih _ (by omega) _ rfl)

theorem distinct_subset (list : List Literal) : list.eraseDupsBy same ⊆ list := by
  induction list using distinct_induction with
  | nil => exact List.Subset.refl _
  | cons a list ih =>
    rw [List.eraseDupsBy_cons]
    exact List.cons_subset_cons a (List.Subset.trans ih (List.filter_subset_self list))

/-- No two of them are equal. -/
theorem distinct_pairwise (list : List Literal) :
    (list.eraseDupsBy same).Pairwise fun a b => a.same b = false := by
  induction list using distinct_induction with
  | nil => exact .nil
  | cons a list ih =>
    rw [List.eraseDupsBy_cons]
    refine .cons (fun b hb => ?_) ih
    have hne := (List.mem_filter.1 (distinct_subset _ hb)).2
    rw [same_comm, of_decide_eq_true hne]

/-- Of the literals that equal a given one the first is left. -/
theorem distinct_filter (b : Literal) (list : List Literal) :
    (list.eraseDupsBy same).filter b.same = (list.find? b.same).toList := by
  induction list using distinct_induction with
  | nil => rfl
  | cons a list ih =>
    rw [List.eraseDupsBy_cons, List.filter_cons, ih, List.find?_cons]
    cases hb : b.same a with
    | true =>
      -- whatever equals the given literal equals the first one and was left out with it
      have hnone : (list.filter fun c => c.same a = false).find? b.same = none := by
        refine List.find?_eq_none.2 fun c hc hbc => ?_
        have hca := of_decide_eq_true (List.mem_filter.1 hc).2
        rw [same_trans (same_symm hbc) hb] at hca
        cases hca
      rw [hnone, if_pos rfl]
      rfl
    | false =>
      have hsame : (fun c => decide (decide (c.same a = false) = true ∧ b.same c = true))
          = b.same := by
        funext c
        rw [Bool.eq_iff_iff, decide_eq_true_eq, decide_eq_true_eq]
        refine ⟨fun hc => hc.2, fun hc => ⟨Bool.eq_false_iff.2 fun hca => ?_, hc⟩⟩
        rw [same_trans hc hca] at hb
        cases hb
      rw [List.find?_filter, hsame, if_neg Bool.false_ne_true]

end Literal

namespace Relations

/-- Terms are told apart as the literals are. -/
theorem distinctTerms_lit (list : List Literal) :
    distinctTerms (list.map .lit) = (list.eraseDupsBy Literal.same).map .lit := by
  suffices h : ∀ done : List Literal,
      (list.map Term.lit).foldl (fun done t => if done.any t.same then done else done ++ [t])
          (done.reverse.map .lit)
        = (List.eraseDupsBy.loop Literal.same list done).map .lit from h []
  induction list with
  | nil => exact fun done => rfl
  | cons a list ih =>
    intro done
    have hany : (done.reverse.map Term.lit).any (Term.lit a).same = done.any a.same := by
      rw [List.any_map, List.any_reverse]
      rfl
    rw [List.map_cons, List.foldl_cons, hany, List.eraseDupsBy.loop]
    cases done.any a.same with
    | true => exact ih done
    | false =>
      have hnext := ih (a :: done)
      rw [List.reverse_cons, List.map_append] at hnext
      exact hnext

end Relations

/-! ## Branches with one item each -/

namespace Stream

theorem Drains.nth_zero {t : Stream} {i : Item} {is : List Item} (h : t.Drains (i :: is)) :
    t.Nth 0 i := by
  cases h with
  | item hi _ => exact .zero ⟨_, hi⟩

section Each

variable {α : Type} {stream : α → Stream} {item : α → Item}

/-- The rest of a round in which every stream has an item. -/
theorem Rounds.found_all {ts done : List Stream} {is : List Item} {as : List α}
    (h : Rounds ts 0 done (as.map stream) is) (has : ∀ a ∈ as, (stream a).Drains [item a]) :
    Rounds ts 0 (done ++ as.map stream) [] (is ++ as.map item) := by
  induction as generalizing done is with
  | nil => rwa [List.map_nil, List.map_nil, List.append_nil, List.append_nil]
  | cons a as ih =>
    obtain ⟨ha, has⟩ := List.forall_mem_cons.1 has
    have hrest := ih (h.found ha.nth_zero) has
    rwa [List.append_assoc, List.append_assoc] at hrest

/-- The second round finds all streams at their end. -/
theorem merge_drains_each {as : List α} (has : ∀ a ∈ as, (stream a).Drains [item a]) :
    (merge (as.map stream)).Drains (as.map item) := by
  refine drains_merge_iff.2 ⟨1, (Rounds.start.found_all has).round, fun t ht => ?_⟩
  obtain ⟨a, ha, rfl⟩ := List.mem_map.1 ht
  exact ⟨[item a], has a ha, Nat.le_refl 1⟩

end Each

theorem live_map {α : Type} {p : α → Bool} {f : α → State} (as : List α)
    (h : ∀ a, (f a).isFaulted = false) :
    live (as.map fun a => if p a then some (f a) else none) = (as.filter p).map f := by
  induction as with
  | nil => rfl
  | cons a as ih =>
    rw [List.map_cons, List.filter_cons]
    cases p a with
    | true =>
      rw [if_pos rfl, if_pos rfl, live_live (h a), ih]
      rfl
    | false =>
      rw [if_neg Bool.false_ne_true, if_neg Bool.false_ne_true]
      exact ih

end Stream

theorem Goal.or_yields_each {α : Type} {s : State} {goal : α → Goal} {item : α → Item}
    {as : List α} (has : ∀ a ∈ as, (goal a).Yields s [item a]) :
    (Goal.or (as.map goal)).Yields s (as.map item) := by
  rw [Yields, apply, List.map_map]
  exact Stream.merge_drains_each fun a ha => Stream.drains_of_silent rfl (has a ha)

theorem Tree.toGoals?_equal {α : Type} (registry : Registry) (serial : Nat) (d e : α → Term)
    (as : List α) :
    toGoals? registry serial (as.map fun a => .equal (d a) (e a))
      = .ok (as.map fun a => .equal (d a) (e a), serial) := by
  induction as with
  | nil => rfl
  | cons a as ih => simp only [List.map_cons, toGoals?, toGoal?, ih]

/-! ## One literal -/

namespace State

variable {s : State} {x y : Var} {b : Literal}

/-- A variable with a value accepts what equals the value. -/
theorem unify_valued (hlive : s.isFaulted = false) (hx : s.valueOf? x = some b) (a : Literal) :
    (s.unify (.var x) (.lit a)).value = if b.same a then some s else none := by
  obtain ⟨nested, -, hlevel⟩ := s.unifyFully_level (.var x) (.lit a)
  rw [unify, Traced.value_map, hlevel, unifyWith, if_neg (Bool.eq_false_iff.1 hlive),
    valueOf?_eq_some.1 hx, resolve_lit]
  cases hb : b.same a with
  | true =>
    simp only [hb]
    rfl
  | false =>
    simp only [hb]
    rfl

theorem woken_of_not_hasConstraint (h : s.hasConstraint y = false) (t : Term) :
    (s.bind y t).woken y = [] := by
  have hnone : s.constraintsOf y = [] := by
    rwa [hasConstraint, Bool.not_eq_false', List.isEmpty_iff] at h
  rw [woken, constraintsOf_bind, hnone, List.filter_nil]

/-- A variable without a value takes what the kind at the end of its chain admits, if no constraint
waits there. -/
theorem unify_open (hlive : s.isFaulted = false) (hx : s.resolve (.var x) = .var y)
    (hy : s.hasConstraint y = false) (a : Literal) :
    (s.unify (.var x) (.lit a)).value
      = if y.kind.admits a then some (s.bind y (.lit a)) else none := by
  obtain ⟨nested, -, hlevel⟩ := s.unifyFully_level (.var x) (.lit a)
  rw [unify, Traced.value_map, hlevel, unifyWith, if_neg (Bool.eq_false_iff.1 hlive), hx,
    resolve_lit]
  cases ha : y.kind.admits a with
  | true =>
    simp only [assign_admitted ha, woken_of_not_hasConstraint hy]
    rfl
  | false =>
    simp only [assign_refused ha]
    rfl

theorem valueOf?_bind_end (hs : s.Acyclic) (hx : s.resolve (.var x) = .var y) (a : Literal) :
    (s.bind y (.lit a)).valueOf? x = some a := by
  rw [valueOf?_eq_some, resolve_assign hs (hs.free_of_resolve hx), hx, Term.replace_self]

end State

namespace Relations

variable {s : State}

/-- Membership tries the literals in turn, each once. A variable with a value succeeds once, and
as the state is, if the value is in the list. Any other variable succeeds with those literals that
the kind at the end of its chain admits, unless constraints wait there. -/
theorem oneOf_decides (h : State.Leads .empty s) (hlive : s.isFaulted = false) (x : Var)
    (list : List Literal) (registry : Registry) (serial : Nat) :
    ∃ g is, (oneOf x (list.map .lit)).convert? registry serial = .ok (g, serial)
      ∧ g.Yields s is
      ∧ is = (list.eraseDupsBy Literal.same).map (fun a => (s.unify (.var x) (.lit a)).value)
      ∧ (list.eraseDupsBy Literal.same).Pairwise (fun a b => a.same b = false)
      ∧ (∀ b, s.valueOf? x = some b →
          Stream.live is = if list.any b.same then [s] else [])
      ∧ ∀ y, s.resolve (.var x) = .var y → s.hasConstraint y = false →
          Stream.live is = ((list.eraseDupsBy Literal.same).filter y.kind.admits).map
              (fun a => s.bind y (.lit a))
            ∧ ∀ a, (s.bind y (.lit a)).valueOf? x = some a := by
  have hgoals := Tree.toGoals?_equal registry serial (fun _ => .var x) Term.lit
    (list.eraseDupsBy Literal.same)
  have heach : ∀ a ∈ list.eraseDupsBy Literal.same,
      (Goal.equal (.var x) (.lit a)).Yields s [(s.unify (.var x) (.lit a)).value] :=
    fun a _ => Goal.drains_once (s.unify (.var x) (.lit a)).value
  refine ⟨_, _, ?_, Goal.or_yields_each heach, rfl, Literal.distinct_pairwise list, fun b hb => ?_,
    fun y hx hy => ⟨?_, ?_⟩⟩
  · rw [Tree.convert?_eq, oneOf, distinctTerms_lit, List.map_map, Tree.toGoal?]
    simp only [Function.comp_def, hgoals]
  · simp only [State.unify_valued hlive hb]
    rw [Stream.live_map _ fun _ => hlive, Literal.distinct_filter, ← List.isSome_find?]
    cases list.find? b.same <;> rfl
  · simp only [State.unify_open hlive hx hy]
    exact Stream.live_map _ fun _ => hlive
  · exact State.valueOf?_bind_end h.wellFormed.acyclic hx

/-- A variable of any kind is an alias of a number, so it takes the integer and the float, each
once, and no text. The two zeros of floats are equal. -/
theorem oneOf_decides_aliased :
    let s := State.empty.pointAt (.any "w") ⟨"x", .number⟩
    let positive := Literal.number (.double (.zero false))
    let negative := Literal.number (.double (.zero true))
    State.Leads .empty s ∧ s.isFaulted = false
      ∧ s.resolve (.var (.any "w")) = .var ⟨"x", .number⟩
      ∧ s.hasConstraint ⟨"x", .number⟩ = false
      ∧ ∃ g is, (oneOf (.any "w")
          ([.word 0, positive, .string "0", negative, .word 0].map .lit)).convert? .empty 7
            = .ok (g, 7)
        ∧ g.Yields s is
        ∧ Stream.live is
          = [s.bind ⟨"x", .number⟩ (.lit (.word 0)), s.bind ⟨"x", .number⟩ (.lit positive)] := by
  intro s positive negative
  have hs : State.Leads .empty s :=
    State.unify_leads (a := .var (.any "w")) (b := .var ⟨"x", .number⟩) rfl
  obtain ⟨g, is, hg, his, -, -, -, hopen⟩ := oneOf_decides hs rfl (.any "w")
    [.word 0, positive, .string "0", negative, .word 0] .empty 7
  exact ⟨hs, rfl, rfl, rfl, g, is, hg, his, (hopen _ rfl rfl).1⟩

end Relations

end Goalbase

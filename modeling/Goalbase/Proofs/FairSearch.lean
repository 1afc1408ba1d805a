import Goalbase.Proofs.Draining
import Mathlib.Data.List.Forall2

/-!
# Goalbase.Proofs.FairSearch

The fair search gives what the naive one gives.

`Goal.items` evaluates a goal depth first to a list: a disjunction concatenates its branches, a
conjunction puts the items of its second goal in place of each live state of the first.
`fair_search_exact` says that the stream of a goal without delay ends and that its items are those
of the list, in an order that keeps the order within each branch and within the items on one state;
so conjunction and disjunction obey the usual laws on the multiset of answers (`AnswerLaws`).
-/

namespace Goalbase

/-- A constraint registered for each of the variables. -/
def State.register (s : State) (c : Constraint) (xs : List Var) : State :=
  xs.foldl (fun t x => t.addConstraint x c) s

/-- What a constraint makes of a state: registered, and checked if it is ready. -/
def State.post (s : State) (c : Constraint) : Traced Item :=
  if s.isReady c then (s.register c c.vars).check c else .pure (some (s.register c c.vars))

namespace Goal

/-- Goals without delay, whose constraints satisfy `K`. -/
inductive Built (K : Constraint → Prop) : Goal → Prop where
  | succeed : Built K .succeed
  | fail : Built K .fail
  | equal (d e : Term) : Built K (.equal d e)
  | constraint {c : Constraint} (hc : K c) : Built K (.constraint c)
  | or {goals : List Goal} (h : ∀ g ∈ goals, Built K g) : Built K (.or goals)
  | and {first second : Goal} (h : Built K first) (h' : Built K second) :
      Built K (.and first second)

/-- An item followed by what comes of a live state. -/
def andThen (f : State → List Item) : Item → List Item
  | none => [none]
  | some s => if s.isFaulted then [some s] else f s

mutual

/-- The items of a goal, depth first. A goal that never ends has no list and is left out. -/
def items : Goal → State → List Item
  | .succeed, s => [some s]
  | .fail, _ => [none]
  | .equal d e, s => [(s.unify d e).value]
  | .constraint c, s => [(s.post c).value]
  | .or goals, s => itemsAny goals s
  | .and first second, s => (items first s).flatMap (andThen fun t => items second t)
  | .delay goal, s => items goal s
  | .endless _ _, _ => []
  | .labelled _ goal, s => items goal s

def itemsAny : List Goal → State → List Item
  | [], _ => []
  | goal :: rest, s => items goal s ++ itemsAny rest s

end

/-- The items that pulls on the goal's stream give up to the end. -/
def Yields (g : Goal) (s : State) (is : List Item) : Prop := Stream.Drains (g.apply s).value is

/-- The items of one branch of a disjunction, and those of a conjunction's second goal on one
state, keep their order. -/
def OrderKept : Goal → State → List Item → Prop
  | .or goals, s, is =>
    ∃ parts, List.Forall₂ (fun g part => g.Yields s part) goals parts ∧ Merged parts is
  | .and first second, s, is =>
    ∃ source parts, first.Yields s source
      ∧ List.Forall₂ (fun t part => second.Yields t part) (Stream.live source) parts
      ∧ Merged (Stream.passing source :: parts) is
  | _, _, _ => True

theorem itemsAny_eq (goals : List Goal) (s : State) :
    itemsAny goals s = goals.flatMap fun g => g.items s := by
  induction goals with
  | nil => rfl
  | cons g rest ih => rw [itemsAny, ih, List.flatMap_cons]

theorem andThen_live (f : State → List Item) {s : State} (h : s.isFaulted = false) :
    andThen f (some s) = f s := if_neg (by rw [h]; exact Bool.false_ne_true)

theorem andThen_faulted (f : State → List Item) {s : State} (h : s.isFaulted = true) :
    andThen f (some s) = [some s] := if_pos h

theorem apply_constraint (c : Constraint) (s : State) :
    (constraint c).apply s = (s.post c).map .once := by
  simp only [apply, State.post, State.register]
  split <;> rfl

theorem drains_once (i : Item) : Stream.Drains (.once i) [i] :=
  Stream.drains_of_item rfl (Stream.drains_of_ended rfl)

/-- What passes by and what comes of the live states are all that comes of the items. -/
theorem perm_andThen (f : State → List Item) (is : List Item) :
    (Stream.passing is ++ ((Stream.live is).map f).flatten).Perm (is.flatMap (andThen f)) := by
  induction is with
  | nil => exact .nil
  | cons i is ih =>
    rw [List.flatMap_cons]
    cases i with
    | none => exact ih.cons none
    | some s =>
      cases hs : s.isFaulted with
      | true =>
        rw [Stream.passing_faulted hs, Stream.live_faulted hs, andThen_faulted f hs]
        exact ih.cons (some s)
      | false =>
        rw [Stream.passing_live hs, Stream.live_live hs, andThen_live f hs, List.map_cons,
          List.flatten_cons, ← List.append_assoc]
        exact (List.perm_append_comm.append_right _).trans
          (by rw [List.append_assoc]; exact ih.append_left (f s))

theorem exists_parts {R : Goal → List Item → Prop} {goals : List Goal}
    (h : ∀ g ∈ goals, ∃ part, R g part) : ∃ parts, List.Forall₂ R goals parts := by
  induction goals with
  | nil => exact ⟨[], .nil⟩
  | cons g rest ih =>
    obtain ⟨part, hpart⟩ := h g List.mem_cons_self
    obtain ⟨parts, hparts⟩ := ih fun g' hg' => h g' (List.mem_cons_of_mem _ hg')
    exact ⟨part :: parts, .cons hpart hparts⟩

theorem or_yields {goals : List Goal} {s : State} {parts : List (List Item)}
    (h : List.Forall₂ (fun g part => g.Yields s part) goals parts) :
    ∃ is, (Goal.or goals).Yields s is ∧ Merged parts is := by
  have hwaiting : List.Forall₂ Stream.Drains (goals.map fun g => .waiting g s) parts :=
    List.forall₂_map_left_iff.2 (h.imp fun _ _ hg => Stream.drains_of_silent rfl hg)
  exact Stream.merge_drains hwaiting

theorem and_yields {first second : Goal} {s : State} {source : List Item}
    {f : State → List Item} (h : first.Yields s source) (hf : ∀ t, second.Yields t (f t)) :
    ∃ is, (Goal.and first second).Yields s is
      ∧ Merged (Stream.passing source :: (Stream.live source).map f) is := by
  obtain ⟨k, hk⟩ := Stream.Drains.runs h
  exact Stream.bound_runs hf hk .nil true

theorem perm_itemsAny {goals : List Goal} {s : State} {parts : List (List Item)}
    (h : List.Forall₂ (fun g part => part.Perm (g.items s)) goals parts) :
    parts.flatten.Perm (itemsAny goals s) := by
  induction h with
  | nil => exact .nil
  | cons hg _ ih => exact hg.append ih

/-- Every stream of a goal without delay ends, with the items of the depth-first list. -/
theorem Built.yields {K : Constraint → Prop} {g : Goal} (hg : g.Built K) (s : State) :
    ∃ is, g.Yields s is ∧ is.Perm (g.items s) ∧ g.OrderKept s is := by
  induction hg generalizing s with
  | succeed => exact ⟨[some s], drains_once _, .refl _, trivial⟩
  | fail => exact ⟨[none], drains_once _, .refl _, trivial⟩
  | equal d e => exact ⟨[(s.unify d e).value], drains_once _, .refl _, trivial⟩
  | @constraint c _ =>
    refine ⟨[(s.post c).value], ?_, .refl _, trivial⟩
    rw [Yields, apply_constraint]
    exact drains_once _
  | @or goals _ ih =>
    obtain ⟨parts, hparts⟩ := exists_parts fun g hg => ih g hg s
    have hyields := hparts.imp fun _ _ h => h.1
    obtain ⟨is, his, hm⟩ := or_yields hyields
    exact ⟨is, his, hm.perm_flatten.trans (perm_itemsAny (hparts.imp fun _ _ h => h.2.1)),
      parts, hyields, hm⟩
  | @and first second _ _ ih ih' =>
    obtain ⟨source, hsource, hperm, -⟩ := ih s
    obtain ⟨f, hf⟩ := Classical.skolem.1 ih'
    obtain ⟨is, his, hm⟩ := and_yields hsource fun t => (hf t).1
    refine ⟨is, his, ?_, source, _, hsource, ?_, hm⟩
    · have hthen : ∀ i, (andThen f i).Perm (andThen (fun t => second.items t) i) := by
        intro i
        cases i with
        | none => exact .refl _
        | some t =>
          simp only [andThen]
          split
          · exact .refl _
          · exact (hf t).2.1
      calc List.Perm is (Stream.passing source ++ ((Stream.live source).map f).flatten) :=
            hm.perm_flatten
        List.Perm _ (source.flatMap (andThen f)) := perm_andThen f source
        List.Perm _ _ := hperm.flatMap fun i _ => hthen i
    · exact List.forall₂_map_right_iff.2 (List.forall₂_same.2 fun t _ => (hf t).1)

theorem built_andAll {K : Constraint → Prop} {goals : List Goal} (h : ∀ g ∈ goals, g.Built K) :
    (andAll goals).Built K := by
  cases goals with
  | nil => exact .succeed
  | cons g rest =>
    have hfold : ∀ (rest : List Goal) (g : Goal), g.Built K → (∀ g' ∈ rest, g'.Built K) →
        (rest.foldl .and g).Built K := by
      intro rest
      induction rest with
      | nil => exact fun _ hg _ => hg
      | cons g' rest ih =>
        intro g hg hrest
        exact ih _ (hg.and (hrest g' List.mem_cons_self))
          fun x hx => hrest x (List.mem_cons_of_mem _ hx)
    exact hfold rest g (h g List.mem_cons_self) fun x hx => h x (List.mem_cons_of_mem _ hx)

/-! ## Answers -/

/-- The answers of a goal on a state, depth first. -/
def answers (g : Goal) (s : State) : List State := Stream.live (g.items s)

/-- The streams of the two goals give the same answers, each as often. -/
def SameAnswers (g h : Goal) : Prop :=
  ∀ s is js, g.Yields s is → h.Yields s js → (Stream.live is).Perm (Stream.live js)

theorem live_flatMap_andThen (f : State → List Item) (is : List Item) :
    Stream.live (is.flatMap (andThen f)) = (Stream.live is).flatMap fun s => Stream.live (f s) := by
  induction is with
  | nil => rfl
  | cons i is ih =>
    rw [List.flatMap_cons, Stream.live, List.filterMap_append]
    change Stream.live _ ++ Stream.live _ = _
    rw [ih]
    cases i with
    | none => rfl
    | some s =>
      cases hs : s.isFaulted with
      | true => rw [andThen_faulted f hs, Stream.live_faulted hs, Stream.live_faulted hs]; rfl
      | false => rw [andThen_live f hs, Stream.live_live hs, List.flatMap_cons]

theorem answers_and (first second : Goal) :
    (Goal.and first second).answers = fun s => (first.answers s).flatMap second.answers :=
  funext fun _ => live_flatMap_andThen _ _

theorem answers_or (goals : List Goal) :
    (Goal.or goals).answers = fun s => goals.flatMap fun g => g.answers s := by
  funext s
  rw [answers, items, itemsAny_eq, Stream.live, List.filterMap_flatMap]
  rfl

theorem perm_flatMap_comm {α β γ : Type} (xs : List α) (ys : List β) (f : α → β → List γ) :
    (xs.flatMap fun x => ys.flatMap fun y => f x y).Perm
      (ys.flatMap fun y => xs.flatMap fun x => f x y) := by
  induction ys with
  | nil =>
    simp only [List.flatMap_nil]
    rw [List.flatMap_eq_nil_iff.2 fun _ _ => rfl]
  | cons y ys ih =>
    simp only [List.flatMap_cons]
    exact (List.flatMap_append_perm xs _ _).symm.trans (ih.append_left _)

section Laws

variable {K : Constraint → Prop}

theorem sameAnswers_of_perm {g h : Goal} (hg : g.Built K) (hh : h.Built K)
    (hperm : ∀ s, (g.answers s).Perm (h.answers s)) : SameAnswers g h := by
  intro s is js his hjs
  obtain ⟨is', his', hi, -⟩ := hg.yields s
  obtain ⟨js', hjs', hj, -⟩ := hh.yields s
  rw [Stream.Drains.deterministic his his', Stream.Drains.deterministic hjs hjs']
  exact (hi.filterMap _).trans ((hperm s).trans (hj.filterMap _).symm)

/-- Conjunction is associative, disjunction is associative and commutative, and conjunction
distributes over disjunction. -/
structure AnswerLaws (P : Goal → Prop) : Prop where
  and_assoc : ∀ {a b c}, P a → P b → P c → SameAnswers (.and (.and a b) c) (.and a (.and b c))
  or_assoc : ∀ {as bs cs}, (∀ g ∈ as, P g) → (∀ g ∈ bs, P g) → (∀ g ∈ cs, P g) →
    SameAnswers (.or (as ++ .or bs :: cs)) (.or (as ++ bs ++ cs))
  or_comm : ∀ {as bs}, as.Perm bs → (∀ g ∈ as, P g) → SameAnswers (.or as) (.or bs)
  and_or : ∀ {a bs}, P a → (∀ g ∈ bs, P g) →
    SameAnswers (.and a (.or bs)) (.or (bs.map fun b => .and a b))
  or_and : ∀ {as b}, (∀ g ∈ as, P g) → P b →
    SameAnswers (.and (.or as) b) (.or (as.map fun a => .and a b))

theorem answerLaws (K : Constraint → Prop) : AnswerLaws (Built K) where
  and_assoc ha hb hc := sameAnswers_of_perm ((ha.and hb).and hc) (ha.and (hb.and hc)) fun s => by
    simp only [answers_and, List.flatMap_assoc]
    exact .refl _
  or_assoc {as bs cs} ha hb hc := by
    refine sameAnswers_of_perm (K := K) (.or fun g hg => ?_) (.or fun g hg => ?_) fun s => ?_
    · cases List.mem_append.1 hg with
      | inl hg => exact ha g hg
      | inr hg =>
        cases List.mem_cons.1 hg with
        | inl e => rw [e]; exact .or hb
        | inr hg => exact hc g hg
    · cases List.mem_append.1 hg with
      | inl hg => exact (List.mem_append.1 hg).elim (ha g) (hb g)
      | inr hg => exact hc g hg
    · simp only [answers_or, List.flatMap_append, List.flatMap_cons, List.append_assoc]
      exact .refl _
  or_comm {as bs} hperm ha := by
    refine sameAnswers_of_perm (K := K) (.or ha) (.or fun g hg => ha g (hperm.mem_iff.2 hg))
      fun s => ?_
    simp only [answers_or]
    exact hperm.flatMap_right _
  and_or {a bs} ha hb := by
    refine sameAnswers_of_perm (K := K) (ha.and (.or hb)) (.or fun g hg => ?_) fun s => ?_
    · obtain ⟨b, hmem, rfl⟩ := List.mem_map.1 hg
      exact ha.and (hb b hmem)
    · simp only [answers_and, answers_or, List.flatMap_map]
      exact perm_flatMap_comm _ _ _
  or_and {as b} ha hb := by
    refine sameAnswers_of_perm (K := K) ((Built.or ha).and hb) (.or fun g hg => ?_) fun s => ?_
    · obtain ⟨a, hmem, rfl⟩ := List.mem_map.1 hg
      exact (ha a hmem).and hb
    · simp only [answers_and, answers_or, List.flatMap_map, List.flatMap_assoc]
      exact .refl _

/-- The stream of a goal without delay ends, and its items are those of the depth-first list in an
order that keeps the order of every branch; so conjunction and disjunction obey their laws on the
answers. -/
theorem fair_search_exact {g : Goal} (hg : g.Built K) (s : State) :
    (∃ is, g.Yields s is ∧ is.Perm (g.items s) ∧ g.OrderKept s is) ∧ AnswerLaws (Built K) :=
  ⟨hg.yields s, answerLaws K⟩

end Laws

/-- Two live states with two items each and a failure that passes by; the empty disjunction gives
nothing. -/
theorem fair_search_exact_nested :
    ∃ is, (Goal.and (.or [.equal (.var (.any "x")) (.lit (.word 1)), .or [], .fail, .succeed])
          (.or [.succeed, .fail])).Yields .empty is
      ∧ is.length = 5
      ∧ (Goal.and (.or [.equal (.var (.any "x")) (.lit (.word 1)), .or [], .fail, .succeed])
          (.or [.succeed, .fail])).OrderKept .empty is := by
  have hbuilt : (Goal.and (.or [.equal (.var (.any "x")) (.lit (.word 1)), .or [], .fail, .succeed])
      (.or [.succeed, .fail])).Built fun _ => False := by
    refine .and (.or fun g hg => ?_) (.or fun g hg => ?_)
    · simp only [List.mem_cons, List.not_mem_nil, or_false] at hg
      obtain rfl | rfl | rfl | rfl := hg
      · exact .equal _ _
      · exact .or fun g hg => by cases hg
      · exact .fail
      · exact .succeed
    · simp only [List.mem_cons, List.not_mem_nil, or_false] at hg
      obtain rfl | rfl := hg
      · exact .succeed
      · exact .fail
  obtain ⟨⟨is, his, hperm, horder⟩, -⟩ := fair_search_exact hbuilt .empty
  exact ⟨is, his, hperm.length_eq, horder⟩

end Goal

end Goalbase

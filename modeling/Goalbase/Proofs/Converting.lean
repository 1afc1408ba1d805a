import Goalbase.Tree.Conversion

/-!
# Goalbase.Proofs.Converting

The conversion with open frames computes the recursive reading of a tree.

The steps that `Tree.work` counts for a child leave its goal on the innermost frame
(`Work.run?_child`) and those for all children leave their goals in order (`Work.run?_children`), so
`Tree.convert?` is `Tree.toGoal?` (`convert?_eq`). `Reads` says what goal a tree stands for, rule by
rule, and `FirstRefused` which error stops the leaves of a tree, taken from left to right.
`conversion_exact` ties the three together; there the steps are not bounded (`ConvertsTo`), for a
run that does not end as malformed was not cut short (`Work.ends_of_run?`).
-/

namespace Goalbase

namespace Tree

variable {registry : Registry} {n m : Nat}

theorem Work.run?_succ (steps : Nat) (f : Frame) (frames : List Frame) (output : List Goal)
    (serial : Nat) :
    Work.run? registry (steps + 1) ⟨f :: frames, output, serial⟩
      = match Work.step? registry f frames output serial with
        | .error e => .error e
        | .ok work => work.run? registry steps := rfl

/-- After its children a node is finished and its goal goes on. -/
theorem Work.run?_node (j : Join) (build : List Goal → Goal)
    (hfinish : ∀ gs, Frame.finish? ⟨j, [], gs⟩ = some (build gs.reverse)) {children : List Tree}
    {frames : List Frame} {output : List Goal} {serial k : Nat}
    (h : Work.run? registry (workAll children + (k + 1)) ⟨⟨j, children, []⟩ :: frames, output, serial⟩
      = match toGoals? registry serial children with
        | .error e => .error e
        | .ok (gs, next) =>
          Work.run? registry (k + 1) ⟨⟨j, [], gs.reverse ++ []⟩ :: frames, output, next⟩) :
    Work.run? registry (workAll children + (k + 1)) ⟨⟨j, children, []⟩ :: frames, output, serial⟩
      = match toGoals? registry serial children with
        | .error e => .error e
        | .ok (gs, next) =>
          Work.run? registry k (Work.supply frames output next (some (build gs))) := by
  rw [h]
  cases toGoals? registry serial children with
  | error e => rfl
  | ok done =>
    obtain ⟨gs, next⟩ := done
    simp only [List.append_nil, Work.run?_succ, Work.step?, hfinish, List.reverse_reverse]

mutual

/-- After the steps of a child its goal is on the frame. -/
theorem Work.run?_child : ∀ (t : Tree) (k : Nat) (j : Join) (rest : List Tree) (goals : List Goal)
    (frames : List Frame) (output : List Goal) (serial : Nat),
    Work.run? registry (t.work + k) ⟨⟨j, t :: rest, goals⟩ :: frames, output, serial⟩
      = match toGoal? registry serial t with
        | .error e => .error e
        | .ok (g, next) => Work.run? registry k ⟨⟨j, rest, g :: goals⟩ :: frames, output, next⟩
  | .equal a b, k, j, rest, goals, frames, output, serial => by
    rw [work, Nat.add_comm 1 k, Work.run?_succ]
    rfl
  | .and children, k, j, rest, goals, frames, output, serial => by
    have hsteps : workAll children + 2 + k = workAll children + (k + 1) + 1 := by omega
    rw [work, hsteps, Work.run?_succ, toGoal?]
    refine (Work.run?_node .and .andAll (fun _ => rfl)
      (Work.run?_children children _ _ _ _ _ _)).trans ?_
    cases toGoals? registry serial children <;> rfl
  | .or children, k, j, rest, goals, frames, output, serial => by
    have hsteps : workAll children + 2 + k = workAll children + (k + 1) + 1 := by omega
    rw [work, hsteps, Work.run?_succ, toGoal?]
    refine (Work.run?_node .or .or (fun _ => rfl)
      (Work.run?_children children _ _ _ _ _ _)).trans ?_
    cases toGoals? registry serial children <;> rfl
  | .constraint name params inline?, k, j, rest, goals, frames, output, serial => by
    rw [work, Nat.add_comm 1 k, Work.run?_succ]
    simp only [Work.step?, toGoal?]
    cases constraintGoal? registry serial name params inline? <;> rfl

/-- After the steps of the children their goals are on the frame, in reverse. -/
theorem Work.run?_children : ∀ (children : List Tree) (k : Nat) (j : Join) (goals : List Goal)
    (frames : List Frame) (output : List Goal) (serial : Nat),
    Work.run? registry (workAll children + k) ⟨⟨j, children, goals⟩ :: frames, output, serial⟩
      = match toGoals? registry serial children with
        | .error e => .error e
        | .ok (gs, next) =>
          Work.run? registry k ⟨⟨j, [], gs.reverse ++ goals⟩ :: frames, output, next⟩
  | [], k, j, goals, frames, output, serial => by
    rw [workAll, Nat.zero_add]
    rfl
  | t :: rest, k, j, goals, frames, output, serial => by
    rw [workAll, Nat.add_assoc, Work.run?_child t, toGoals?]
    cases toGoal? registry serial t with
    | error e => rfl
    | ok done =>
      obtain ⟨g, next⟩ := done
      simp only [Work.run?_children rest]
      cases toGoals? registry next rest with
      | error e => rfl
      | ok done =>
        obtain ⟨gs, last⟩ := done
        simp only [List.reverse_cons, List.append_assoc, List.singleton_append]

end

/-- The conversion of a tree is its recursive reading. -/
theorem convert?_eq (registry : Registry) (serial : Nat) (t : Tree) :
    t.convert? registry serial = t.toGoal? registry serial := by
  cases t with
  | equal a b => rfl
  | and children =>
    rw [convert?, Work.start?, work, toGoal?]
    refine (Work.run?_node .and .andAll (fun _ => rfl)
      (Work.run?_children children _ _ _ _ _ _)).trans ?_
    cases toGoals? registry serial children <;> rfl
  | or children =>
    rw [convert?, Work.start?, work, toGoal?]
    refine (Work.run?_node .or .or (fun _ => rfl)
      (Work.run?_children children _ _ _ _ _ _)).trans ?_
    cases toGoals? registry serial children <;> rfl
  | constraint name params inline? =>
    rw [convert?, Work.start?, work, toGoal?]
    cases constraintGoal? registry serial name params inline? <;> rfl

/-! ## The loop without a bound -/

/-- What the steps of a conversion come to, however many they are. -/
inductive Work.Ends (registry : Registry) : Work → Converted Goal → Prop where
  | done (g : Goal) (serial : Nat) : Ends registry ⟨[], [g], serial⟩ (.ok (g, serial))
  | malformed {output : List Goal} (h : output.length ≠ 1) (serial : Nat) :
      Ends registry ⟨[], output, serial⟩ (.error (.malformed output.length))
  | failed {f : Frame} {frames : List Frame} {output : List Goal} {serial : Nat}
      {e : ConversionError} (h : Work.step? registry f frames output serial = .error e) :
      Ends registry ⟨f :: frames, output, serial⟩ (.error e)
  | step {f : Frame} {frames : List Frame} {output : List Goal} {serial : Nat} {work : Work}
      {result : Converted Goal} (h : Work.step? registry f frames output serial = .ok work)
      (rest : Ends registry work result) : Ends registry ⟨f :: frames, output, serial⟩ result

theorem Work.Ends.deterministic {work : Work} {result result' : Converted Goal}
    (h : work.Ends registry result) (h' : work.Ends registry result') : result = result' := by
  induction h with
  | done g serial =>
    cases h' with
    | done _ _ => rfl
    | malformed hne _ => exact absurd rfl hne
  | malformed hne serial =>
    cases h' with
    | done _ _ => exact absurd rfl hne
    | malformed _ _ => rfl
  | failed hs =>
    cases h' with
    | failed hs' => rw [hs] at hs'; cases hs'; rfl
    | step hs' _ => rw [hs] at hs'; cases hs'
  | step hs _ ih =>
    cases h' with
    | failed hs' => rw [hs] at hs'; cases hs'
    | step hs' rest => rw [hs] at hs'; cases hs'; exact ih rest

/-- A bounded run that does not end as malformed was not cut short. -/
theorem Work.ends_of_run? {steps : Nat} {work : Work} {result : Converted Goal}
    (h : work.run? registry steps = result) (hne : ∀ k, result ≠ .error (.malformed k)) :
    work.Ends registry result := by
  obtain ⟨frames, output, serial⟩ := work
  induction steps generalizing frames output serial with
  | zero =>
    cases frames with
    | cons f frames => exact absurd h.symm (hne _)
    | nil =>
      match output with
      | [g] => exact h ▸ .done g serial
      | [] => exact absurd h.symm (hne _)
      | _ :: _ :: _ => exact absurd h.symm (hne _)
  | succ steps ih =>
    cases frames with
    | nil =>
      match output with
      | [g] => exact h ▸ .done g serial
      | [] => exact absurd h.symm (hne _)
      | _ :: _ :: _ => exact absurd h.symm (hne _)
    | cons f frames =>
      rw [Work.run?_succ] at h
      cases hstep : Work.step? registry f frames output serial with
      | error e =>
        rw [hstep] at h
        exact h ▸ .failed hstep
      | ok work =>
        rw [hstep] at h
        exact .step hstep (ih _ _ _ h)

/-- What a conversion comes to when its steps are not bounded. -/
inductive ConvertsTo (registry : Registry) (n : Nat) (t : Tree) : Converted Goal → Prop where
  | refused {e : ConversionError} (h : Work.start? registry n t = .error e) :
      ConvertsTo registry n t (.error e)
  | run {work : Work} {result : Converted Goal} (h : Work.start? registry n t = .ok work)
      (hrun : work.Ends registry result) : ConvertsTo registry n t result

theorem ConvertsTo.deterministic {t : Tree} {result result' : Converted Goal}
    (h : ConvertsTo registry n t result) (h' : ConvertsTo registry n t result') :
    result = result' := by
  cases h with
  | refused hs =>
    cases h' with
    | refused hs' => rw [hs] at hs'; cases hs'; rfl
    | run hs' _ => rw [hs] at hs'; cases hs'
  | run hs hrun =>
    cases h' with
    | refused hs' => rw [hs] at hs'; cases hs'
    | run hs' hrun' => rw [hs] at hs'; cases hs'; exact hrun.deterministic hrun'

theorem convertsTo_convert? {t : Tree}
    (hne : ∀ k, t.convert? registry n ≠ .error (.malformed k)) :
    ConvertsTo registry n t (t.convert? registry n) := by
  rw [convert?] at hne ⊢
  cases hs : Work.start? registry n t with
  | error e => exact .refused hs
  | ok work =>
    rw [hs] at hne
    exact .run hs (Work.ends_of_run? rfl hne)

/-! ## What a tree reads as -/

mutual

/-- The goal that a tree stands for, when constraints are rebuilt from the first serial number on
and the second one is the next that is free. -/
inductive Reads (registry : Registry) : Nat → Tree → Goal → Nat → Prop where
  | equal (n : Nat) (a b : Term) : Reads registry n (.equal a b) (.equal a b) n
  | inline (n : Nat) (name : String) (params : List Term) (i : Inline) :
      Reads registry n (.constraint name params (some i)) i.goal n
  | rebuilt {n : Nat} {name : String} {params : List Term} {build : Constructor}
      {name' : String} {params' : List Term} {i : Inline} (hname : registry.get? name = some build)
      (hbuild : build (.rebuilt n) params = .ok (.constraint name' params' (some i))) :
      Reads registry n (.constraint name params none) i.goal (n + 1)
  | and {n m : Nat} {children : List Tree} {goals : List Goal}
      (h : ReadsAll registry n children goals m) :
      Reads registry n (.and children) (.andAll goals) m
  | or {n m : Nat} {children : List Tree} {goals : List Goal}
      (h : ReadsAll registry n children goals m) : Reads registry n (.or children) (.or goals) m

/-- The goals of trees in their order. -/
inductive ReadsAll (registry : Registry) : Nat → List Tree → List Goal → Nat → Prop where
  | nil (n : Nat) : ReadsAll registry n [] [] n
  | cons {n m k : Nat} {t : Tree} {rest : List Tree} {g : Goal} {goals : List Goal}
      (h : Reads registry n t g m) (hrest : ReadsAll registry m rest goals k) :
      ReadsAll registry n (t :: rest) (g :: goals) k

end

/-- Why a leaf stands for no goal. -/
inductive Refused (registry : Registry) (n : Nat) : Tree → ConversionError → Prop where
  | unknown {name : String} (params : List Term) (hname : registry.get? name = none) :
      Refused registry n (.constraint name params none) (.unknownConstraint name)
  | build {name : String} {params : List Term} {build : Constructor} {cause : BuildError}
      (hname : registry.get? name = some build)
      (hbuild : build (.rebuilt n) params = .error cause) :
      Refused registry n (.constraint name params none) (.build name cause)
  | missingGoal {name : String} {params : List Term} {build : Constructor} {t : Tree}
      (hname : registry.get? name = some build) (hbuild : build (.rebuilt n) params = .ok t)
      (ht : ∀ name' params' i, t ≠ .constraint name' params' (some i)) :
      Refused registry n (.constraint name params none) (.missingGoal name)

mutual

/-- The equalities and constraints of a tree, from left to right. -/
def leaves : Tree → List Tree
  | .equal a b => [.equal a b]
  | .and children => leavesAll children
  | .or children => leavesAll children
  | .constraint name params inline? => [.constraint name params inline?]

def leavesAll : List Tree → List Tree
  | [] => []
  | t :: rest => leaves t ++ leavesAll rest

end

/-- The error of the first tree that stands for no goal; those before it stand for goals. -/
def FirstRefused (registry : Registry) (n : Nat) (ts : List Tree) (e : ConversionError) : Prop :=
  ∃ done t rest goals m, ts = done ++ t :: rest ∧ ReadsAll registry n done goals m
    ∧ Refused registry m t e

theorem constraintGoal?_eq_ok {name : String} {params : List Term} {inline? : Option Inline}
    {g : Goal} : constraintGoal? registry n name params inline? = .ok (g, m)
      ↔ Reads registry n (.constraint name params inline?) g m := by
  constructor
  · intro h
    cases inline? with
    | some i =>
      cases h
      exact .inline n name params i
    | none =>
      simp only [constraintGoal?] at h
      split at h
      · cases h
      · rename_i build hname
        split at h
        · cases h
        · rename_i name' params' i hbuild
          cases h
          exact .rebuilt hname hbuild
        · cases h
  · intro h
    cases h with
    | inline _ _ _ i => rfl
    | rebuilt hname hbuild => simp only [constraintGoal?, hname, hbuild]

theorem constraintGoal?_eq_error {name : String} {params : List Term} {inline? : Option Inline}
    {e : ConversionError} : constraintGoal? registry n name params inline? = .error e
      ↔ Refused registry n (.constraint name params inline?) e := by
  constructor
  · intro h
    cases inline? with
    | some i => cases h
    | none =>
      simp only [constraintGoal?] at h
      split at h
      · rename_i hname
        cases h
        exact .unknown params hname
      · rename_i build hname
        split at h
        · rename_i cause hbuild
          cases h
          exact .build hname hbuild
        · cases h
        · rename_i t hno hbuild
          cases h
          exact .missingGoal hname hbuild hno
  · intro h
    cases h with
    | unknown _ hname => simp only [constraintGoal?, hname]
    | build hname hbuild => simp only [constraintGoal?, hname, hbuild]
    | @missingGoal _ _ _ t hname hbuild ht =>
      simp only [constraintGoal?, hname, hbuild]

mutual

theorem toGoal?_eq_ok : ∀ {t : Tree} {n m : Nat} {g : Goal},
    toGoal? registry n t = .ok (g, m) ↔ Reads registry n t g m
  | .equal a b, n, m, g => by
    constructor
    · intro h
      cases h
      exact .equal n a b
    · intro h
      cases h
      rfl
  | .and children, n, m, g => by
    rw [toGoal?]
    constructor
    · intro h
      split at h
      · cases h
      · rename_i hgoals
        cases h
        exact .and (toGoals?_eq_ok.1 hgoals)
    · intro h
      cases h with
      | and h => rw [toGoals?_eq_ok.2 h]
  | .or children, n, m, g => by
    rw [toGoal?]
    constructor
    · intro h
      split at h
      · cases h
      · rename_i hgoals
        cases h
        exact .or (toGoals?_eq_ok.1 hgoals)
    · intro h
      cases h with
      | or h => rw [toGoals?_eq_ok.2 h]
  | .constraint _ _ _, n, m, g => constraintGoal?_eq_ok

theorem toGoals?_eq_ok : ∀ {ts : List Tree} {n m : Nat} {goals : List Goal},
    toGoals? registry n ts = .ok (goals, m) ↔ ReadsAll registry n ts goals m
  | [], n, m, goals => by
    constructor
    · intro h
      cases h
      exact .nil n
    · intro h
      cases h
      rfl
  | t :: rest, n, m, goals => by
    rw [toGoals?]
    constructor
    · intro h
      split at h
      · cases h
      · rename_i hfirst
        split at h
        · cases h
        · rename_i hrest
          cases h
          exact .cons (toGoal?_eq_ok.1 hfirst) (toGoals?_eq_ok.1 hrest)
    · intro h
      cases h with
      | cons h hrest => simp only [toGoal?_eq_ok.2 h, toGoals?_eq_ok.2 hrest]

end

/-- The serial number that is free after a tree, or the error of the tree. -/
def next? (registry : Registry) (n : Nat) (t : Tree) : Except ConversionError Nat :=
  (toGoal? registry n t).map Prod.snd

def nextAll? (registry : Registry) (n : Nat) (ts : List Tree) : Except ConversionError Nat :=
  (toGoals? registry n ts).map Prod.snd

theorem next?_eq_error {t : Tree} {e : ConversionError} :
    next? registry n t = .error e ↔ toGoal? registry n t = .error e := by
  rw [next?]
  cases toGoal? registry n t <;> simp [Except.map]

theorem nextAll?_cons (n : Nat) (t : Tree) (rest : List Tree) :
    nextAll? registry n (t :: rest)
      = (next? registry n t).bind fun m => nextAll? registry m rest := by
  rw [nextAll?, next?, toGoals?]
  cases toGoal? registry n t with
  | error e => rfl
  | ok done =>
    simp only [Except.map, Except.bind, nextAll?]
    cases toGoals? registry done.2 rest <;> rfl

theorem nextAll?_append (n : Nat) (ts us : List Tree) :
    nextAll? registry n (ts ++ us)
      = (nextAll? registry n ts).bind fun m => nextAll? registry m us := by
  induction ts generalizing n with
  | nil => rfl
  | cons t ts ih =>
    rw [List.cons_append, nextAll?_cons, nextAll?_cons]
    cases next? registry n t with
    | error e => rfl
    | ok m => exact ih m

theorem ReadsAll.nextAll?_eq {ts : List Tree} {goals : List Goal}
    (h : ReadsAll registry n ts goals m) : nextAll? registry n ts = .ok m := by
  rw [nextAll?, toGoals?_eq_ok.2 h]
  rfl

mutual

/-- A tree comes to the error, or leaves the serial number free, that its leaves do. -/
theorem nextAll?_leaves : ∀ (t : Tree) (n : Nat),
    nextAll? registry n t.leaves = next? registry n t
  | .equal a b, n => rfl
  | .and children, n => by
    rw [leaves, nextAll?_leavesAll, nextAll?, next?, toGoal?]
    cases toGoals? registry n children <;> rfl
  | .or children, n => by
    rw [leaves, nextAll?_leavesAll, nextAll?, next?, toGoal?]
    cases toGoals? registry n children <;> rfl
  | .constraint name params inline?, n => by
    rw [leaves, nextAll?_cons]
    cases next? registry n (.constraint name params inline?) <;> rfl

theorem nextAll?_leavesAll : ∀ (ts : List Tree) (n : Nat),
    nextAll? registry n (leavesAll ts) = nextAll? registry n ts
  | [], n => rfl
  | t :: rest, n => by
    rw [leavesAll, nextAll?_append, nextAll?_cons, nextAll?_leaves t]
    exact congrArg (Except.bind _) (funext fun m => nextAll?_leavesAll rest m)

end

theorem Refused.toGoal?_eq {t : Tree} {e : ConversionError} (h : Refused registry n t e) :
    toGoal? registry n t = .error e := by
  cases h with
  | unknown params hname => exact constraintGoal?_eq_error.2 (.unknown params hname)
  | build hname hbuild => exact constraintGoal?_eq_error.2 (.build hname hbuild)
  | missingGoal hname hbuild ht => exact constraintGoal?_eq_error.2 (.missingGoal hname hbuild ht)

mutual

/-- A leaf that has an error is a constraint that is refused. -/
theorem refused_of_mem_leaves : ∀ (t : Tree) {u : Tree} {m : Nat} {e : ConversionError},
    u ∈ t.leaves → toGoal? registry m u = .error e → Refused registry m u e
  | .equal a b, u, m, e, hu, h => by
    rw [List.mem_singleton.1 hu] at h
    cases h
  | .and children, u, m, e, hu, h => refused_of_mem_leavesAll children hu h
  | .or children, u, m, e, hu, h => refused_of_mem_leavesAll children hu h
  | .constraint name params inline?, u, m, e, hu, h => by
    rw [List.mem_singleton.1 hu] at h ⊢
    exact constraintGoal?_eq_error.1 h

theorem refused_of_mem_leavesAll : ∀ (ts : List Tree) {u : Tree} {m : Nat} {e : ConversionError},
    u ∈ leavesAll ts → toGoal? registry m u = .error e → Refused registry m u e
  | [], u, m, e, hu, h => by cases hu
  | t :: rest, u, m, e, hu, h =>
    (List.mem_append.1 hu).elim (fun hu => refused_of_mem_leaves t hu h)
      fun hu => refused_of_mem_leavesAll rest hu h

end

/-- A list of trees comes to the error of the first that has one. -/
theorem exists_of_nextAll?_eq_error {ts : List Tree} {e : ConversionError}
    (h : nextAll? registry n ts = .error e) :
    ∃ done t rest goals m, ts = done ++ t :: rest ∧ ReadsAll registry n done goals m
      ∧ toGoal? registry m t = .error e := by
  induction ts generalizing n with
  | nil => cases h
  | cons t ts ih =>
    rw [nextAll?_cons] at h
    cases ht : toGoal? registry n t with
    | error e' =>
      rw [next?_eq_error.2 ht] at h
      cases h
      exact ⟨[], t, ts, [], n, rfl, .nil n, ht⟩
    | ok first =>
      rw [next?, ht] at h
      obtain ⟨done, u, rest, goals, m, rfl, hdone, hu⟩ := ih h
      exact ⟨t :: done, u, rest, first.1 :: goals, m, rfl, .cons (toGoal?_eq_ok.1 ht) hdone, hu⟩

/-- The error of a tree is that of its first leaf which stands for no goal. -/
theorem toGoal?_eq_error {t : Tree} {e : ConversionError} :
    toGoal? registry n t = .error e ↔ FirstRefused registry n t.leaves e := by
  rw [← next?_eq_error, ← nextAll?_leaves]
  constructor
  · intro h
    obtain ⟨done, u, rest, goals, m, hsplit, hdone, hu⟩ := exists_of_nextAll?_eq_error h
    have hmem : u ∈ t.leaves := by
      rw [hsplit]
      exact List.mem_append_right _ List.mem_cons_self
    exact ⟨done, u, rest, goals, m, hsplit, hdone, refused_of_mem_leaves t hmem hu⟩
  · rintro ⟨done, u, rest, goals, m, hsplit, hdone, hu⟩
    rw [hsplit, nextAll?_append, hdone.nextAll?_eq, Except.bind, nextAll?_cons,
      next?_eq_error.2 hu.toGoal?_eq]
    rfl

theorem FirstRefused.ne_malformed {ts : List Tree} {e : ConversionError}
    (h : FirstRefused registry n ts e) (k : Nat) : e ≠ .malformed k := by
  obtain ⟨_, _, _, _, _, -, -, hu⟩ := h
  cases hu <;> exact fun h => by cases h

/-- However deep the tree, its conversion ends, and it reads the tree as the recursion on it does:
it succeeds with the goal that the tree stands for, or fails with the error of the first leaf that
stands for none. It never fails as malformed. -/
theorem conversion_exact (registry : Registry) (n : Nat) (t : Tree) :
    (∀ result, ConvertsTo registry n t result ↔ result = t.convert? registry n)
      ∧ t.convert? registry n = t.toGoal? registry n
      ∧ (∀ g m, t.convert? registry n = .ok (g, m) ↔ Reads registry n t g m)
      ∧ (∀ e, t.convert? registry n = .error e ↔ FirstRefused registry n t.leaves e)
      ∧ ∀ k, t.convert? registry n ≠ .error (.malformed k) := by
  have hne : ∀ k, t.convert? registry n ≠ .error (.malformed k) := by
    intro k h
    rw [convert?_eq] at h
    exact (toGoal?_eq_error.1 h).ne_malformed k rfl
  refine ⟨fun result => ⟨fun h => h.deterministic (convertsTo_convert? hne), fun h => ?_⟩,
    convert?_eq registry n t, fun g m => ?_, fun e => ?_, hne⟩
  · rw [h]
    exact convertsTo_convert? hne
  · rw [convert?_eq]
    exact toGoal?_eq_ok
  · rw [convert?_eq]
    exact toGoal?_eq_error

/-- Of two unknown names the one further to the left is reported. -/
example : (Tree.and [.or [], .or [.and [.constraint "second" [] none]], .constraint "third" [] none]
    ).convert? .empty 0 = .error (.unknownConstraint "second") := rfl

end Tree

end Goalbase

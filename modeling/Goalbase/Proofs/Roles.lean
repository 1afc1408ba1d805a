import Goalbase.Proofs.Members

/-!
# Goalbase.Proofs.Roles

What the parts of a stored tree are read as.

Every value in a stored tree stands in a `Role`: it is the envelope, a goal, a list of goals, a
reference to a value, a list of these, or plain data. A node uses the names that `Role.field?` gives
for its tag and nothing else: objects in which each of these holds the same, for a reader in its
role, are themselves read the same (`Role.same_node`). So it makes no difference when one element or
one member is replaced by one that is read the same (`Role.same_element`, `Role.same_member`), or
when a node gets a member whose name it does not use (`Role.same_added`).
-/

namespace Goalbase

/-- What a value in a stored tree is read as. -/
inductive Role where
  | envelope
  | goal (p : Position)
  | goals
  | term
  | terms
  | plain

namespace Role

/-- The roles of objects that are read by the names of their members. -/
def IsNode : Role → Prop
  | .envelope => True
  | .goal _ => True
  | .term => True
  | _ => False

/-- The tag of a node from the value in its member `type`. -/
def tag? : Role → Option Json → Option Nat
  | .goal p, j => p.tag? Tree.tags j
  | .term, j => Position.nested.tag? Term.tags j
  | _, _ => none

/-- The role of what a node with a tag holds under a name, if it uses the name. -/
def field? (role : Role) (tag : Option Nat) (name : String) : Option Role :=
  match role, tag, name with
  | .envelope, _, "format_version" => some .plain
  | .envelope, _, "goal" => some (.goal .outermost)
  | .goal _, _, "type" => some .plain
  | .goal _, some 0, "first" => some .term
  | .goal _, some 0, "second" => some .term
  | .goal _, some 1, "goals" => some .goals
  | .goal _, some 2, "goals" => some .goals
  | .goal _, some 3, "name" => some .plain
  | .goal _, some 3, "parameters" => some .terms
  | .term, _, "type" => some .plain
  | .term, some 0, "value" => some .plain
  | .term, some 1, "name" => some .plain
  | .term, some 1, "value_type" => some .plain
  | _, _, _ => none

/-- The role of a member, plain unless the node uses its name. -/
def member (role : Role) (tag : Option Nat) (key : Option String) : Role :=
  match key with
  | some name => (role.field? tag name).getD .plain
  | none => .plain

theorem member_ne_envelope (role : Role) (tag : Option Nat) (key : Option String) :
    role.member tag key ≠ .envelope := by
  cases key with
  | none => exact fun he => by cases he
  | some name =>
    have hfield : role.field? tag name ≠ some .envelope := by
      unfold field?
      split <;> exact fun he => by cases he
    intro he
    rw [member] at he
    cases h : role.field? tag name with
    | none => rw [h] at he; cases he
    | some r =>
      rw [h] at he
      exact hfield (by rw [h]; exact congrArg some he)

/-- The role of the elements of a list. -/
def element : Role → Role
  | .goals => .goal .nested
  | .terms => .term
  | _ => .plain

/-- A reader in the role takes the two values for the same. -/
def Same : Role → Json → Json → Prop
  | .envelope, _, _ => True
  | .goal p, x, y => Tree.ofJson? p x.normal = Tree.ofJson? p y.normal
  | .goals, x, y => Tree.listOfJson? x.normal = Tree.listOfJson? y.normal
  | .term, x, y => Term.ofJson? x.normal = Term.ofJson? y.normal
  | .terms, x, y => Term.listOfJson? x.normal = Term.listOfJson? y.normal
  | .plain, x, y => x.normal = y.normal

variable {role : Role} {tag : Option Nat} {x y z : Json} {ms ns : List (String × Json)}

theorem same_of_normal_eq (role : Role) (h : x.normal = y.normal) : role.Same x y := by
  cases role <;> simp only [Same, h]

theorem Same.trans (h : role.Same x y) (h' : role.Same y z) : role.Same x z := by
  cases role with
  | envelope => trivial
  | _ => exact Eq.trans h h'

/-- Both are missing, or both are there and the same. -/
def SameIf (role : Role) : Option Json → Option Json → Prop := Option.Rel role.Same

theorem SameIf.refl (role : Role) (x : Option Json) : role.SameIf x x := by
  cases x with
  | none => exact .none
  | some x => exact .some (role.same_of_normal_eq rfl)

theorem SameIf.trans {x y z : Option Json} (h : role.SameIf x y) (h' : role.SameIf y z) :
    role.SameIf x z := by
  cases h with
  | none => exact h'
  | some h =>
    cases h' with
    | some h' => exact .some (h.trans h')

theorem SameIf.map_normal {x y : Option Json} (h : plain.SameIf x y) :
    x.map Json.normal = y.map Json.normal := by
  cases h with
  | none => rfl
  | some h => exact congrArg some h

theorem SameIf.bind_eq {α : Type} {x y : Option Json} (h : role.SameIf x y)
    {f g : Json → Option α} (hf : ∀ i j, role.Same i j → f i = g j) : x.bind f = y.bind g := by
  cases h with
  | none => rfl
  | some h => exact hf _ _ h

theorem tag?_congr (role : Role) {x y : Option Json} (h : x.map Json.normal = y.map Json.normal) :
    role.tag? x = role.tag? y := by
  cases role with
  | goal p =>
    simp only [tag?]
    rw [← p.tag?_normal _ x, h, p.tag?_normal]
  | term =>
    simp only [tag?]
    rw [← Position.nested.tag?_normal _ x, h, Position.nested.tag?_normal]
  | _ => rfl

end Role

/-! ## Nodes are read by looking up what they use -/

theorem Tree.allOfJson?_eq (js : List Json) :
    allOfJson? js = Utf8.allSome (js.map (ofJson? .nested)) := by
  induction js with
  | nil => rfl
  | cons j js ih =>
    rw [allOfJson?, ih, List.map_cons]
    cases ofJson? .nested j with
    | none => rfl
    | some t =>
      rw [Utf8.allSome]
      cases Utf8.allSome (js.map (ofJson? .nested)) <;> rfl

theorem Tree.leafOfFields?_equal (fields : List String → Option (List Json)) :
    leafOfFields? (some 0) fields = (fields ["first", "second"]).bind ofEqual? := by
  rw [leafOfFields?]
  cases fields ["first", "second"] <;> rfl

theorem Tree.leafOfFields?_constraint (fields : List String → Option (List Json)) :
    leafOfFields? (some 3) fields = (fields ["name", "parameters"]).bind ofConstraint? := by
  rw [leafOfFields?]
  cases fields ["name", "parameters"] <;> rfl

theorem Term.ofFields?_value (fields : List String → Option (List Json)) :
    ofFields? (some 0) fields = (fields ["value"]).bind ofValue? := by
  rw [ofFields?]
  cases fields ["value"] <;> rfl

theorem Term.ofFields?_variable (fields : List String → Option (List Json)) :
    ofFields? (some 1) fields = (fields ["name", "value_type"]).bind ofVariable? := by
  rw [ofFields?]
  cases fields ["name", "value_type"] <;> rfl

theorem Tree.ofJson?_object (p : Position) (ms : List (String × Json)) :
    ofJson? p (Json.object ms).normal
      = nodeOf? (p.tag? tags (Json.member? "type" ms))
          ((Json.member? "goals" ms).bind fun j => listOfJson? j.normal)
          (leafOfFields? (p.tag? tags (Json.member? "type" ms))
            (Json.fieldsOf? (Json.ordered (Json.normalMembers ms)))) := by
  have hkeys := Json.nodup_of_ascending (Json.ascending_ordered (Json.normalMembers ms))
  rw [Json.normal, ofJson?, childrenOf?_eq hkeys, Json.member?_normal, Json.member?_normal,
    p.tag?_normal]
  cases Json.member? "goals" ms <;> rfl

theorem Term.ofJson?_object (ms : List (String × Json)) :
    ofJson? (Json.object ms).normal
      = ofFields? (Position.nested.tag? tags (Json.member? "type" ms))
          (Json.fieldsOf? (Json.ordered (Json.normalMembers ms))) := by
  rw [Json.normal, ofJson?, Json.member?_normal, Position.tag?_normal]

namespace Role

variable {role : Role} {x y : Json} {ms ns : List (String × Json)}

/-- Two objects hold the same, for a reader in its role, under every name that a node with the tag
uses. -/
def Agree (role : Role) (tag : Option Nat) (ms ns : List (String × Json)) : Prop :=
  ∀ name r, role.field? tag name = some r → r.SameIf (Json.member? name ms) (Json.member? name ns)

theorem same_goal {p : Position}
    (h : (goal p).Agree (p.tag? Tree.tags (Json.member? "type" ms)) ms ns) :
    (goal p).Same (.object ms) (.object ns) := by
  have htype := (h "type" .plain (by simp [field?])).map_normal
  have htag : p.tag? Tree.tags (Json.member? "type" ms)
      = p.tag? Tree.tags (Json.member? "type" ns) := (goal p).tag?_congr htype
  rw [Same, Tree.ofJson?_object, Tree.ofJson?_object, ← htag]
  -- One case for each kind of node, with the fields that it is read from.
  generalize p.tag? Tree.tags (Json.member? "type" ms) = tag at h
  match tag with
  | none => rfl
  | some 0 =>
    simp only [Tree.nodeOf?, Tree.leafOfFields?_equal, Json.fieldsOf?_two]
    refine (h "first" .term rfl).bind_eq fun a a' ha => ?_
    refine (h "second" .term rfl).bind_eq fun b b' hb => ?_
    rw [Same] at ha hb
    rw [Tree.ofEqual?, Tree.ofEqual?, ha, hb]
  | some 1 =>
    exact congrArg (Option.map Tree.and) ((h "goals" .goals rfl).bind_eq fun _ _ hj => hj)
  | some 2 =>
    exact congrArg (Option.map Tree.or) ((h "goals" .goals rfl).bind_eq fun _ _ hj => hj)
  | some 3 =>
    simp only [Tree.nodeOf?, Tree.leafOfFields?_constraint, Json.fieldsOf?_two]
    refine (h "name" .plain rfl).bind_eq fun a a' ha => ?_
    refine (h "parameters" .terms rfl).bind_eq fun b b' hb => ?_
    rw [Same] at ha
    rw [Same] at hb
    rw [ha]
    cases a'.normal with
    | string name => rw [Tree.ofConstraint?, Tree.ofConstraint?, hb]
    | _ => rfl
  | some (n + 4) => rfl

theorem same_term
    (h : term.Agree (Position.nested.tag? Term.tags (Json.member? "type" ms)) ms ns) :
    term.Same (.object ms) (.object ns) := by
  have htype := (h "type" .plain (by simp [field?])).map_normal
  have htag : Position.nested.tag? Term.tags (Json.member? "type" ms)
      = Position.nested.tag? Term.tags (Json.member? "type" ns) := term.tag?_congr htype
  rw [Same, Term.ofJson?_object, Term.ofJson?_object, ← htag]
  generalize Position.nested.tag? Term.tags (Json.member? "type" ms) = tag at h
  match tag with
  | none => rfl
  | some 0 =>
    simp only [Term.ofFields?_value, Json.fieldsOf?_one]
    refine (h "value" .plain rfl).bind_eq fun a a' ha => ?_
    rw [Same] at ha
    rw [ha]
  | some 1 =>
    simp only [Term.ofFields?_variable, Json.fieldsOf?_two]
    refine (h "name" .plain rfl).bind_eq fun a a' ha => ?_
    refine (h "value_type" .plain rfl).bind_eq fun b b' hb => ?_
    rw [Same] at ha hb
    rw [ha, hb]
  | some (n + 2) => rfl

/-- A node is read by what it holds under the names that it uses. -/
theorem same_node (hrole : role.IsNode)
    (h : role.Agree (role.tag? (Json.member? "type" ms)) ms ns) :
    role.Same (.object ms) (.object ns) := by
  cases role with
  | envelope => trivial
  | goal p => exact same_goal h
  | term => exact same_term h
  | _ => cases hrole

/-! ## Changes in one place -/

/-- Lists with the same elements but for one, which is read the same. -/
theorem same_element (h : role.element.Same x y) (xs ys : List Json) :
    role.Same (.array (xs ++ x :: ys)) (.array (xs ++ y :: ys)) := by
  cases role with
  | goals =>
    have hxy : Tree.ofJson? .nested x.normal = Tree.ofJson? .nested y.normal := h
    simp only [Same, Json.normal, Tree.listOfJson?, Tree.allOfJson?_eq, Json.normalElements_eq_map,
      List.map_append, List.map_cons, hxy]
  | terms =>
    have hxy : Term.ofJson? x.normal = Term.ofJson? y.normal := h
    simp only [Same, Json.normal, Term.listOfJson?, Json.normalElements_eq_map, List.map_append,
      List.map_cons, hxy]
  | _ =>
    have hxy : x.normal = y.normal := h
    refine same_of_normal_eq _ ?_
    simp only [Json.normal, Json.normalElements_eq_map, List.map_append, List.map_cons, hxy]

variable {k l : String}

/-- Among members that differ in one, the same is found. -/
theorem sameIf_member? (role : Role) (h : k = l → role.Same x y) (ms ns : List (String × Json)) :
    role.SameIf (Json.member? l (ms ++ (k, x) :: ns)) (Json.member? l (ms ++ (k, y) :: ns)) := by
  simp only [Json.member?_append, Json.member?_cons]
  cases Json.member? l ns with
  | some j => exact .refl role _
  | none =>
    by_cases hk : k = l
    · rw [if_pos hk, if_pos hk]
      exact .some (h hk)
    · rw [if_neg hk, if_neg hk]
      exact .refl role _

/-- Objects with the same members but for one, which is read the same. -/
theorem same_member
    (h : (role.member (role.tag? (Json.member? "type" (ms ++ (k, x) :: ns))) (some k)).Same x y) :
    role.Same (.object (ms ++ (k, x) :: ns)) (.object (ms ++ (k, y) :: ns)) := by
  have hagree : role.Agree (role.tag? (Json.member? "type" (ms ++ (k, x) :: ns)))
      (ms ++ (k, x) :: ns) (ms ++ (k, y) :: ns) := by
    intro name r hr
    refine r.sameIf_member? (fun hk => ?_) ms ns
    subst hk
    rw [member, hr] at h
    exact h
  cases role with
  | envelope => trivial
  | goal p => exact same_goal hagree
  | term => exact same_term hagree
  | _ =>
    exact same_of_normal_eq _ (Json.normal_object_ext fun l =>
      (plain.sameIf_member? (fun _ => h) ms ns).map_normal)

/-- A member that a node does not use is passed over. -/
theorem same_added (hrole : role.IsNode)
    (hk : role.field? (role.tag? (Json.member? "type" (ms ++ ns))) k = none) (x : Json) :
    role.Same (.object (ms ++ ns)) (.object (ms ++ (k, x) :: ns)) := by
  refine same_node hrole fun name r hr => ?_
  have hne : k ≠ name := by
    rintro rfl
    rw [hk] at hr
    cases hr
  simp only [Json.member?_append, Json.member?_cons, if_neg hne, Option.or_none]
  exact .refl r _

end Role

end Goalbase

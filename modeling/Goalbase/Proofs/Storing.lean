import Goalbase.Proofs.Parsing
import Goalbase.Tree.Format

/-!
# Goalbase.Proofs.Storing

Goal trees are read back as they were stored.

`Tree.ofJson?_toJson` says that the stored form of a tree, with its objects in the order in which a
generic value holds them, is read as the tree without its inline goals. `Tree.reread?` is the tree
whose literals are what their texts are read as, and what was encoded is decoded as that tree without
its inline goals (`Tree.decode?_encode_eq`). Subject to doubles that read back from their own text
this makes `Tree.stored_exactly`: decoding what was encoded gives `Tree.stored`, which is the tree
itself exactly when it carries no inline goal, and what is decoded from any bytes is stored and read
back without loss.
-/

namespace Goalbase

namespace Json

/-! ## Values in order are their own normal form -/

theorem setMember_append {members : List (String × Json)} {key : String} (value : Json)
    (h : ∀ m ∈ members, m.1 < key) : setMember key value members = members ++ [(key, value)] := by
  induction members with
  | nil => rfl
  | cons m members ih =>
    have hm : m.1 < key := h m List.mem_cons_self
    have hnot : ¬key < m.1 := Std.not_lt.2 (Std.le_of_lt hm)
    have hne : key ≠ m.1 := fun he => Std.lt_irrefl (he ▸ hm)
    rw [setMember, if_neg hnot, if_neg hne, ih fun m' hm' => h m' (List.mem_cons_of_mem _ hm')]
    rfl

theorem pairwise_of_ascending {members : List (String × Json)} (h : ascending members = true) :
    members.Pairwise fun a b => a.1 < b.1 := by
  induction members with
  | nil => exact .nil
  | cons m members ih =>
    cases members with
    | nil => exact .cons (fun _ hb => by cases hb) .nil
    | cons m' members =>
      simp only [ascending, Bool.and_eq_true, decide_eq_true_eq] at h
      have hrest := ih h.2
      refine .cons (fun b hb => ?_) hrest
      rcases List.mem_cons.1 hb with rfl | hb
      · exact h.1
      · exact Std.lt_trans h.1 ((List.pairwise_cons.1 hrest).1 b hb)

theorem ordered_of_ascending {members : List (String × Json)} (h : ascending members = true) :
    ordered members = members := by
  have hfold : ∀ ms done : List (String × Json), (done ++ ms).Pairwise (fun a b => a.1 < b.1) →
      ms.foldl (fun done m => setMember m.1 m.2 done) done = done ++ ms := by
    intro ms
    induction ms with
    | nil => intro done _; rw [List.foldl_nil, List.append_nil]
    | cons m ms ih =>
      intro done hp
      have hlt : ∀ m' ∈ done, m'.1 < m.1 := fun m' hm' =>
        (List.pairwise_append.1 hp).2.2 m' hm' m List.mem_cons_self
      rw [List.foldl_cons, setMember_append m.2 hlt, ih]
      · rw [List.append_assoc]
        rfl
      · rw [List.append_assoc]
        exact hp
  exact hfold members [] (pairwise_of_ascending h)

mutual

theorem normal_of_isNormal : ∀ j : Json, j.isNormal = true → j.normal = j
  | .null, _ => rfl
  | .bool _, _ => rfl
  | .number _, _ => rfl
  | .string _, _ => rfl
  | .array elements, h => by
    rw [normal, normalElements_of_areNormal elements h]
  | .object members, h => by
    simp only [isNormal, Bool.and_eq_true] at h
    rw [normal, normalMembers_of_valuesNormal members h.2, ordered_of_ascending h.1]

theorem normalElements_of_areNormal : ∀ js : List Json, areNormal js = true →
    normalElements js = js
  | [], _ => rfl
  | j :: rest, h => by
    simp only [areNormal, Bool.and_eq_true] at h
    rw [normalElements, normal_of_isNormal j h.1, normalElements_of_areNormal rest h.2]

theorem normalMembers_of_valuesNormal : ∀ ms : List (String × Json), valuesNormal ms = true →
    normalMembers ms = ms
  | [], _ => rfl
  | (k, j) :: rest, h => by
    simp only [valuesNormal, Bool.and_eq_true] at h
    rw [normalMembers, normal_of_isNormal j h.1, normalMembers_of_valuesNormal rest h.2]

end

theorem normalElements_eq_map (js : List Json) : normalElements js = js.map normal := by
  induction js with
  | nil => rfl
  | cons j js ih => rw [normalElements, ih, List.map_cons]

end Json

theorem Literal.ofJson_json (a : Literal) : Literal.ofJson a.json = a := by
  obtain ⟨j, hj⟩ := a
  simp only [Literal.ofJson, Json.normal_of_isNormal j hj]

/-! ## Values that are read back stay in order -/

namespace Json

theorem map_fst_rereadMembers? {ms ns : List (String × Json)} (h : rereadMembers? ms = some ns) :
    ns.map Prod.fst = ms.map Prod.fst := by
  induction ms generalizing ns with
  | nil =>
    cases h
    rfl
  | cons m ms ih =>
    simp only [rereadMembers?] at h
    split at h
    · rename_i hrest
      cases h
      rw [List.map_cons, List.map_cons, ih hrest]
    · cases h

theorem ascending_cons_cons (m m' : String × Json) (ms : List (String × Json)) :
    ascending (m :: m' :: ms) = (decide (m.1 < m'.1) && ascending (m' :: ms)) := rfl

theorem ascending_congr {ms ns : List (String × Json)}
    (h : ns.map Prod.fst = ms.map Prod.fst) : ascending ns = ascending ms := by
  induction ms generalizing ns with
  | nil => rw [List.map_eq_nil_iff.1 h]
  | cons m ms ih =>
    obtain ⟨n, ns, rfl, hk, hrest⟩ := List.map_eq_cons_iff.1 h
    cases ms with
    | nil => rw [List.map_eq_nil_iff.1 hrest]; rfl
    | cons m' ms =>
      have htail := ih hrest
      obtain ⟨n', ns, rfl, hk', -⟩ := List.map_eq_cons_iff.1 hrest
      rw [ascending_cons_cons, ascending_cons_cons, hk, hk', htail]

mutual

theorem isNormal_reread? : ∀ (j : Json) {k : Json}, j.isNormal = true → j.reread? = some k →
    k.isNormal = true
  | .null, _, _, h => by cases h; rfl
  | .bool _, _, _, h => by cases h; rfl
  | .number _, _, _, h => by
    obtain ⟨n, -, rfl⟩ := Option.map_eq_some_iff.1 h
    rfl
  | .string _, _, _, h => by cases h; rfl
  | .array elements, _, hj, h => by
    obtain ⟨js, hjs, rfl⟩ := Option.map_eq_some_iff.1 h
    exact areNormal_reread? elements hj hjs
  | .object members, _, hj, h => by
    obtain ⟨ms, hms, rfl⟩ := Option.map_eq_some_iff.1 h
    simp only [isNormal, Bool.and_eq_true] at hj ⊢
    exact ⟨(ascending_congr (map_fst_rereadMembers? hms)).trans hj.1,
      valuesNormal_reread? members hj.2 hms⟩

theorem areNormal_reread? : ∀ (js : List Json) {ks : List Json}, areNormal js = true →
    rereadElements? js = some ks → areNormal ks = true
  | [], _, _, h => by cases h; rfl
  | j :: rest, _, hj, h => by
    simp only [areNormal, Bool.and_eq_true] at hj
    simp only [rereadElements?] at h
    split at h
    · rename_i hk hks
      cases h
      simp only [areNormal, isNormal_reread? j hj.1 hk, areNormal_reread? rest hj.2 hks,
        Bool.and_self]
    · cases h

theorem valuesNormal_reread? : ∀ (ms : List (String × Json)) {ns : List (String × Json)},
    valuesNormal ms = true → rereadMembers? ms = some ns → valuesNormal ns = true
  | [], _, _, h => by cases h; rfl
  | (_, j) :: rest, _, hj, h => by
    simp only [valuesNormal, Bool.and_eq_true] at hj
    simp only [rereadMembers?] at h
    split at h
    · rename_i hk hns
      cases h
      simp only [valuesNormal, isNormal_reread? j hj.1 hk, valuesNormal_reread? rest hj.2 hns,
        Bool.and_self]
    · cases h

end

end Json

namespace Literal

/-- What the text of the literal is read as. -/
def reread? (a : Literal) : Option Literal := a.json.reread?.map .ofJson

theorem json_reread? (a : Literal) : a.json.reread? = a.reread?.map Literal.json := by
  rw [reread?, Option.map_map]
  cases h : a.json.reread? with
  | none => rfl
  | some k =>
    have hk := Json.normal_of_isNormal k (Json.isNormal_reread? a.json a.isNormal h)
    simp only [Option.map_some, Function.comp, ofJson, hk]

end Literal

/-! ## Nodes in order -/

namespace Json

variable {k₁ k₂ k₃ : String}

theorem normal_swapped (h : k₂ < k₁) (j₁ j₂ : Json) :
    (object [(k₁, j₁), (k₂, j₂)]).normal = .object [(k₂, j₂.normal), (k₁, j₁.normal)] := by
  simp only [normal, normalMembers, ordered, List.foldl_cons, List.foldl_nil, setMember, if_pos h]

/-- The tag of a node is behind its fields in the order of the keys. -/
theorem normal_rotated (h : k₂ < k₃) (h' : k₃ < k₁) (j₁ j₂ j₃ : Json) :
    (object [(k₁, j₁), (k₂, j₂), (k₃, j₃)]).normal
      = .object [(k₂, j₂.normal), (k₃, j₃.normal), (k₁, j₁.normal)] := by
  have hlt : ¬k₃ < k₂ := Std.not_lt.2 (Std.le_of_lt h)
  have hne : k₃ ≠ k₂ := fun he => Std.lt_irrefl (he ▸ h)
  simp only [normal, normalMembers, ordered, List.foldl_cons, List.foldl_nil, setMember,
    if_pos (Std.lt_trans h h'), if_neg hlt, if_neg hne, if_pos h']

end Json

/-! ## Terms -/

theorem Kind.ofJson?_name (k : Kind) : Kind.ofJson? (.string k.name) = some k := by
  cases k <;> rfl

namespace Term

/-- All numbers in the term satisfy `P`. -/
def Numbers (P : Number → Prop) : Term → Prop
  | .lit a => a.json.Numbers P
  | .var _ => True

theorem ofJson?_toJson (a : Term) : ofJson? a.toJson.normal = some a := by
  cases a with
  | lit a =>
    have hascending : Json.ascending [("type", .string "value"), ("value", a.json)] = true := rfl
    have hnormal : (lit a).toJson.normal = .object [("type", .string "value"), ("value", a.json)] :=
      Json.normal_of_isNormal _ (by
        simp only [toJson, Json.isNormal, hascending, Json.valuesNormal, a.isNormal, Bool.and_self])
    have hread : ofJson? (.object [("type", .string "value"), ("value", a.json)])
        = some (.lit (.ofJson a.json)) := rfl
    rw [hnormal, hread, Literal.ofJson_json]
  | var x =>
    have hnormal : (var x).toJson.normal = .object [("name", .string x.name),
        ("type", .string "variable"), ("value_type", .string x.kind.name)] := by
      simp (disch := decide) only [toJson, Json.normal, Json.normalMembers, Json.ordered,
        List.foldl_cons, List.foldl_nil, Json.setMember, if_pos, if_neg]
    have hread : ofJson? (.object [("name", .string x.name), ("type", .string "variable"),
        ("value_type", .string x.kind.name)])
        = ofVariable? [.string x.name, .string x.kind.name] := rfl
    rw [hnormal, hread]
    simp only [ofVariable?, Kind.ofJson?_name]

theorem legible_toJson {a : Term} (h : a.Numbers fun n => ∀ x, n = .double x → n.ReadsBack) :
    a.toJson.Numbers Number.Legible := by
  cases a with
  | lit a => exact ⟨trivial, Json.Numbers.imp (fun _ => Number.legible_of_readsBack) _ h, trivial⟩
  | var x => exact ⟨trivial, trivial, trivial, trivial⟩

/-- What the text of the term is read as. -/
def reread? : Term → Option Term
  | .lit a => a.reread?.map .lit
  | .var x => some (.var x)

theorem toJson_reread? (a : Term) : a.toJson.reread? = a.reread?.map toJson := by
  cases a with
  | lit a =>
    simp only [toJson, Json.reread?, Json.rereadMembers?, a.json_reread?, reread?]
    cases a.reread? <;> rfl
  | var x => rfl

def rereadAll? : List Term → Option (List Term)
  | [] => some []
  | a :: rest =>
    match reread? a, rereadAll? rest with
    | some a, some as => some (a :: as)
    | _, _ => none

theorem map_toJson_rereadAll? (params : List Term) :
    Json.rereadElements? (params.map toJson) = (rereadAll? params).map (List.map toJson) := by
  induction params with
  | nil => rfl
  | cons a params ih =>
    simp only [List.map_cons, Json.rereadElements?, toJson_reread?, ih, rereadAll?]
    cases reread? a <;> cases rereadAll? params <;> rfl

theorem listOfJson?_toJson (params : List Term) :
    listOfJson? (.array ((params.map toJson).map Json.normal)) = some params := by
  have hread : (((params.map toJson).map Json.normal).map ofJson?) = params.map some := by
    rw [List.map_map, List.map_map]
    exact List.map_congr_left fun a _ => ofJson?_toJson a
  rw [listOfJson?, hread, Utf8.allSome_map_some]

end Term

/-! ## Trees -/

namespace Tree

mutual

/-- What is stored of a tree is read as the tree without its inline goals. -/
theorem ofJson?_toJson : ∀ (p : Position) (t : Tree), ofJson? p t.toJson.normal = some t.stored
  | p, .equal a b => by
    have hnormal : (equal a b).toJson.normal = .object [("first", a.toJson.normal),
        ("second", b.toJson.normal), ("type", .string "equal")] :=
      Json.normal_rotated (by decide) (by decide) _ _ _
    have hread : ofJson? p (.object [("first", a.toJson.normal), ("second", b.toJson.normal),
        ("type", .string "equal")]) = ofEqual? [a.toJson.normal, b.toJson.normal] := rfl
    rw [hnormal, hread]
    simp only [ofEqual?, Term.ofJson?_toJson, stored]
  | p, .and children => by
    have hnormal : (Tree.and children).toJson.normal = .object
        [("goals", .array (Json.normalElements (toJsons children))), ("type", .string "and")] :=
      Json.normal_swapped (by decide) _ _
    have hread : ofJson? p (.object [("goals", .array (Json.normalElements (toJsons children))),
        ("type", .string "and")])
        = (allOfJson? (Json.normalElements (toJsons children))).map .and := rfl
    rw [hnormal, hread, allOfJson?_toJsons children]
    rfl
  | p, .or children => by
    have hnormal : (Tree.or children).toJson.normal = .object
        [("goals", .array (Json.normalElements (toJsons children))), ("type", .string "or")] :=
      Json.normal_swapped (by decide) _ _
    have hread : ofJson? p (.object [("goals", .array (Json.normalElements (toJsons children))),
        ("type", .string "or")])
        = (allOfJson? (Json.normalElements (toJsons children))).map .or := rfl
    rw [hnormal, hread, allOfJson?_toJsons children]
    rfl
  | p, .constraint name params inline? => by
    have hnormal : (Tree.constraint name params inline?).toJson.normal = .object
        [("name", .string name), ("parameters", .array ((params.map Term.toJson).map Json.normal)),
          ("type", .string "constraint")] := by
      rw [toJson, Json.normal_rotated (by decide) (by decide), Json.normal, Json.normal, Json.normal,
        Json.normalElements_eq_map]
    have hread : ofJson? p (.object [("name", .string name),
        ("parameters", .array ((params.map Term.toJson).map Json.normal)),
        ("type", .string "constraint")])
        = ofConstraint? [.string name, .array ((params.map Term.toJson).map Json.normal)] := rfl
    rw [hnormal, hread]
    simp only [ofConstraint?, Term.listOfJson?_toJson, stored]

theorem allOfJson?_toJsons : ∀ children : List Tree,
    allOfJson? (Json.normalElements (toJsons children)) = some (storedAll children)
  | [] => rfl
  | t :: rest => by
    rw [toJsons, Json.normalElements, allOfJson?, ofJson?_toJson .nested t,
      allOfJson?_toJsons rest]
    rfl

end

/-! ## What trees are read as -/

mutual

/-- The tree with each literal as its text is read. -/
def reread? : Tree → Option Tree
  | .equal a b =>
    match a.reread?, b.reread? with
    | some a, some b => some (.equal a b)
    | _, _ => none
  | .and children => (rereadAll? children).map .and
  | .or children => (rereadAll? children).map .or
  | .constraint name params inline? =>
    (Term.rereadAll? params).map fun params => .constraint name params inline?

def rereadAll? : List Tree → Option (List Tree)
  | [] => some []
  | t :: rest =>
    match reread? t, rereadAll? rest with
    | some t, some ts => some (t :: ts)
    | _, _ => none

end

mutual

theorem toJson_reread? : ∀ t : Tree, t.toJson.reread? = t.reread?.map toJson
  | .equal a b => by
    simp only [toJson, Json.reread?, Json.rereadMembers?, Term.toJson_reread?, reread?]
    cases a.reread? <;> cases b.reread? <;> rfl
  | .and children => by
    simp only [toJson, Json.reread?, Json.rereadMembers?, toJsons_rereadAll? children, reread?]
    cases rereadAll? children <;> rfl
  | .or children => by
    simp only [toJson, Json.reread?, Json.rereadMembers?, toJsons_rereadAll? children, reread?]
    cases rereadAll? children <;> rfl
  | .constraint name params inline? => by
    simp only [toJson, Json.reread?, Json.rereadMembers?, Term.map_toJson_rereadAll?, reread?]
    cases Term.rereadAll? params <;> rfl

theorem toJsons_rereadAll? : ∀ ts : List Tree,
    Json.rereadElements? (toJsons ts) = (rereadAll? ts).map toJsons
  | [] => rfl
  | t :: rest => by
    simp only [toJsons, Json.rereadElements?, toJson_reread? t, toJsons_rereadAll? rest, rereadAll?]
    cases reread? t <;> cases rereadAll? rest <;> rfl

end

/-- What was encoded is decoded, unless a number is too large, but for the inline goals. -/
theorem decode?_encode_eq (t : Tree) :
    decode? t.encode = match t.reread? with
      | some u => .ok u.stored
      | none => .error (.decode "the envelope is incomplete") := by
  have hversion : version? (.number (.ofWord (.ofNat formatVersion))) = some formatVersion := rfl
  have hinteger : (Json.number (.ofWord (.ofNat formatVersion))).reread?
      = some (.number (.ofWord (.ofNat formatVersion))) :=
    Json.reread?_legible (.number _) (Number.legible_int _ _ _)
  have hdocument : Document.reread t.envelope = .members
      [(some "format_version", some (.number (.ofWord (.ofNat formatVersion)))),
        (some "goal", t.reread?.map toJson)] := by
    simp only [envelope, Document.reread, List.map_cons, List.map_nil, hinteger, toJson_reread?]
  rw [decode?, encode, text, Document.ofBytes?_text, hdocument]
  cases t.reread? with
  | none => rfl
  | some u =>
    have hfields : (Document.members
        [(some "format_version", some (.number (.ofWord (.ofNat formatVersion)))),
          (some "goal", some u.toJson)]).fields? ["format_version", "goal"]
        = some [some (.number (.ofWord (.ofNat formatVersion))), some u.toJson] := rfl
    simp only [Option.map_some, ofDocument?, hfields, hversion, if_true, ofJson?_toJson]

/-! ## Numbers in trees -/

mutual

/-- All numbers in the terms of the tree satisfy `P`. -/
def Numbers (P : Number → Prop) : Tree → Prop
  | .equal a b => a.Numbers P ∧ b.Numbers P
  | .and children => AllNumbers P children
  | .or children => AllNumbers P children
  | .constraint _ params _ => ∀ a ∈ params, a.Numbers P

def AllNumbers (P : Number → Prop) : List Tree → Prop
  | [] => True
  | t :: rest => Numbers P t ∧ AllNumbers P rest

end

/-- The doubles in the tree are read back unchanged from their JSON text. -/
def DoublesReadBack (t : Tree) : Prop := t.Numbers fun n => ∀ x, n = .double x → n.ReadsBack

mutual

theorem legible_toJson : ∀ t : Tree, t.DoublesReadBack → t.toJson.Numbers Number.Legible
  | .equal a b, h =>
    ⟨trivial, Term.legible_toJson h.1, Term.legible_toJson h.2, trivial⟩
  | .and children, h => ⟨trivial, legible_toJsons children h, trivial⟩
  | .or children, h => ⟨trivial, legible_toJsons children h, trivial⟩
  | .constraint _ params _, h => by
    refine ⟨trivial, trivial, Json.elementNumbers_iff.2 fun j hj => ?_, trivial⟩
    obtain ⟨a, ha, rfl⟩ := List.mem_map.1 hj
    exact Term.legible_toJson (h a ha)

theorem legible_toJsons : ∀ children : List Tree,
    AllNumbers (fun n => ∀ x, n = .double x → n.ReadsBack) children →
      Json.ElementNumbers Number.Legible (toJsons children)
  | [], _ => trivial
  | t :: rest, h => ⟨legible_toJson t h.1, legible_toJsons rest h.2⟩

end

theorem decode?_encode {t : Tree} (h : t.DoublesReadBack) : decode? t.encode = .ok t.stored := by
  have hreread := Json.reread?_legible _ (legible_toJson t h)
  rw [toJson_reread?] at hreread
  obtain ⟨u, hu, hjson⟩ := Option.map_eq_some_iff.1 hreread
  have hstored := ofJson?_toJson .outermost u
  rw [hjson, ofJson?_toJson, Option.some.injEq] at hstored
  rw [decode?_encode_eq, hu, hstored]

/-! ## Inline goals -/

theorem sameParams_refl (params : List Term) : sameParams params params = true := by
  induction params with
  | nil => rfl
  | cons a params ih => simp only [sameParams, Term.same_refl, ih, Bool.and_self]

mutual

theorem same_refl : ∀ t : Tree, t.same t = true
  | .equal a b => by simp only [same, Term.same_refl, Bool.and_self]
  | .and children => by simp only [same, sameAll_refl children]
  | .or children => by simp only [same, sameAll_refl children]
  | .constraint name params inline? => by
    have hinline : sameInline inline? inline? = true := by cases inline? <;> simp [sameInline]
    simp only [same, sameParams_refl, hinline, beq_self_eq_true, Bool.and_self]

theorem sameAll_refl : ∀ ts : List Tree, sameAll ts ts = true
  | [] => rfl
  | t :: ts => by simp only [sameAll, same_refl t, sameAll_refl ts, Bool.and_self]

end

mutual

theorem hasInline_stored : ∀ t : Tree, t.stored.hasInline = false
  | .equal _ _ => rfl
  | .and children => anyInline_storedAll children
  | .or children => anyInline_storedAll children
  | .constraint _ _ _ => rfl

theorem anyInline_storedAll : ∀ ts : List Tree, anyInline (storedAll ts) = false
  | [] => rfl
  | t :: ts => by
    simp only [storedAll, anyInline, hasInline_stored t, anyInline_storedAll ts, Bool.or_self]

end

mutual

theorem stored_of_hasInline : ∀ t : Tree, t.hasInline = false → t.stored = t
  | .equal _ _, _ => rfl
  | .and children, h => by rw [stored, storedAll_of_anyInline children h]
  | .or children, h => by rw [stored, storedAll_of_anyInline children h]
  | .constraint _ _ none, _ => rfl

theorem storedAll_of_anyInline : ∀ ts : List Tree, anyInline ts = false → storedAll ts = ts
  | [], _ => rfl
  | t :: ts, h => by
    simp only [anyInline, Bool.or_eq_false_iff] at h
    rw [storedAll, stored_of_hasInline t h.1, storedAll_of_anyInline ts h.2]

end

mutual

theorem hasInline_of_same : ∀ t : Tree, t.stored.same t = true → t.hasInline = false
  | .equal _ _, _ => rfl
  | .and children, h => anyInline_of_sameAll children h
  | .or children, h => anyInline_of_sameAll children h
  | .constraint _ _ none, _ => rfl
  | .constraint _ _ (some _), h => by
    simp only [stored, same, sameInline, Bool.and_false, Bool.false_eq_true] at h

theorem anyInline_of_sameAll : ∀ ts : List Tree, sameAll (storedAll ts) ts = true →
    anyInline ts = false
  | [], _ => rfl
  | t :: ts, h => by
    simp only [storedAll, sameAll, Bool.and_eq_true] at h
    simp only [anyInline, hasInline_of_same t h.1, anyInline_of_sameAll ts h.2, Bool.or_self]

end

/-- A tree equals what is stored of it exactly when it carries no inline goal. -/
theorem stored_same_iff (t : Tree) : t.stored.same t = true ↔ t.hasInline = false := by
  constructor
  · exact hasInline_of_same t
  · intro h
    rw [stored_of_hasInline t h]
    exact same_refl t

/-! ## What is decoded carries no inline goal -/

theorem hasInline_nodeOf? {tag : Option Nat} {children : Option (List Tree)} {leaf : Option Tree}
    {t : Tree} (hchildren : ∀ ts, children = some ts → anyInline ts = false)
    (hleaf : ∀ u, leaf = some u → u.hasInline = false) (h : nodeOf? tag children leaf = some t) :
    t.hasInline = false := by
  simp only [nodeOf?] at h
  split at h
  · obtain ⟨ts, hts, rfl⟩ := Option.map_eq_some_iff.1 h
    exact hchildren ts hts
  · obtain ⟨ts, hts, rfl⟩ := Option.map_eq_some_iff.1 h
    exact hchildren ts hts
  · exact hleaf t h

theorem hasInline_leafOfFields? {tag : Option Nat} {fields : List String → Option (List Json)}
    {t : Tree} (h : leafOfFields? tag fields = some t) : t.hasInline = false := by
  have hequal : ∀ {js}, ofEqual? js = some t → t.hasInline = false := by
    intro js h
    simp only [ofEqual?] at h
    split at h
    · split at h
      · cases h
        rfl
      · cases h
    · cases h
  have hconstraint : ∀ {js}, ofConstraint? js = some t → t.hasInline = false := by
    intro js h
    simp only [ofConstraint?] at h
    split at h
    · split at h
      · cases h
        rfl
      · cases h
    · cases h
  simp only [leafOfFields?] at h
  split at h
  · split at h
    · exact hequal h
    · cases h
  · split at h
    · exact hconstraint h
    · cases h
  · cases h

mutual

theorem hasInline_ofJson? : ∀ (p : Position) (j : Json) {t : Tree}, ofJson? p j = some t →
    t.hasInline = false
  | _, .null, _, h => by simp [ofJson?] at h
  | _, .bool _, _, h => by simp [ofJson?] at h
  | _, .number _, _, h => by simp [ofJson?] at h
  | _, .string _, _, h => by simp [ofJson?] at h
  | _, .array [], _, h => by simp [ofJson?] at h
  | _, .object ms, _, h => by
    rw [ofJson?] at h
    exact hasInline_nodeOf? (fun _ => anyInline_childrenOf? ms)
      (fun _ => hasInline_leafOfFields?) h
  | _, .array (_ :: js), _, h => by
    rw [ofJson?] at h
    exact hasInline_nodeOf? (fun _ => anyInline_onlyChildrenOf? js)
      (fun _ => hasInline_leafOfFields?) h

theorem anyInline_childrenOf? : ∀ (ms : List (String × Json)) {ts : List Tree},
    childrenOf? ms = some ts → anyInline ts = false
  | (k, j) :: rest, _, h => by
    simp only [childrenOf?] at h
    split at h
    · exact anyInline_listOfJson? j h
    · exact anyInline_childrenOf? rest h

theorem anyInline_onlyChildrenOf? : ∀ (js : List Json) {ts : List Tree},
    onlyChildrenOf? js = some ts → anyInline ts = false
  | [j], _, h => anyInline_listOfJson? j h

theorem anyInline_listOfJson? : ∀ (j : Json) {ts : List Tree}, listOfJson? j = some ts →
    anyInline ts = false
  | .null, _, h => by simp [listOfJson?] at h
  | .bool _, _, h => by simp [listOfJson?] at h
  | .number _, _, h => by simp [listOfJson?] at h
  | .string _, _, h => by simp [listOfJson?] at h
  | .array js, _, h => anyInline_allOfJson? js h
  | .object _, _, h => by simp [listOfJson?] at h

theorem anyInline_allOfJson? : ∀ (js : List Json) {ts : List Tree}, allOfJson? js = some ts →
    anyInline ts = false
  | [], _, h => by cases h; rfl
  | j :: rest, _, h => by
    simp only [allOfJson?] at h
    split at h
    · rename_i t ts ht hts
      cases h
      simp only [anyInline, hasInline_ofJson? .nested j ht, anyInline_allOfJson? rest hts,
        Bool.or_self]
    · cases h

end

theorem hasInline_of_decode? {bytes : Bytes} {t : Tree} (h : decode? bytes = .ok t) :
    t.hasInline = false := by
  simp only [decode?] at h
  split at h
  · simp only [ofDocument?] at h
    split at h
    · split at h
      · cases h
      · split at h
        · split at h
          · rename_i t' ht'
            cases h
            exact hasInline_ofJson? _ _ ht'
          · cases h
        · cases h
    · cases h
  · cases h

/-- What was encoded is decoded but for the inline goals, so to the tree itself exactly when it has
none; and what was decoded is encoded and decoded again without loss. -/
theorem stored_exactly :
    (∀ t : Tree, t.DoublesReadBack →
      decode? t.encode = .ok t.stored ∧ (t.stored.same t = true ↔ t.hasInline = false))
    ∧ ∀ (bytes : Bytes) (t : Tree), decode? bytes = .ok t →
      t.hasInline = false ∧ (t.DoublesReadBack → ∃ u, decode? t.encode = .ok u ∧ u = t
        ∧ u.encode = t.encode) := by
  refine ⟨fun t h => ⟨decode?_encode h, stored_same_iff t⟩, fun bytes t h => ?_⟩
  have hinline := hasInline_of_decode? h
  refine ⟨hinline, fun hdoubles => ⟨t, ?_, rfl, rfl⟩⟩
  rw [decode?_encode hdoubles, stored_of_hasInline t hinline]

/-- A constraint on one and a half, with an inline goal, beside an empty disjunction. -/
theorem stored_exactly_nested :
    ∃ t : Tree, t.DoublesReadBack ∧ t.hasInline = true ∧ decode? t.encode = .ok t.stored
      ∧ ¬t.stored.same t = true ∧ ∃ u, decode? t.stored.encode = .ok u ∧ u = t.stored := by
  let half : Binary64 := ⟨false, 6755399441055744, 1022, by decide, by decide, by decide⟩
  have hhalf : (Number.double half).ReadsBack :=
    (Number.legible_iff _).1 ⟨⟨false, [1], [5], true, none⟩, by decide +kernel, by decide +kernel⟩
  have hdoubles : ∀ inline?, (Tree.and [.or [], .constraint "type" [.lit (.number (.double half))]
      inline?]).DoublesReadBack := by
    refine fun inline? => ⟨trivial, fun a ha => ?_, trivial⟩
    rw [List.mem_singleton.1 ha]
    exact fun _ _ => hhalf
  have hread := stored_exactly.1 _ (hdoubles (some ⟨.built 0, .succeed⟩))
  have hagain := stored_exactly.2 _ _ hread.1
  obtain ⟨u, hu, he, -⟩ := hagain.2 (hdoubles none)
  exact ⟨_, hdoubles _, rfl, hread.1, fun hsame => (by cases hread.2.1 hsame), u, hu, he⟩

end Tree

end Goalbase

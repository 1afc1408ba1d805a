import Goalbase.Proofs.Grammar
import Goalbase.Proofs.Scanning

/-!
# Goalbase.Proofs.Parsing

What JSON values are read back as.

`Json.reread?` is the value that a text is read as, when it is the text of a value: the same value
with each number as its own text gives it, or nothing if one is too large. The text of a value
spells a script, `Json.script` (`Json.spells_chars`), and this script has the value in question
(`Json.value?_script`); so the text of a value is read that way (`Document.ofBytes?_text`), and a
value comes back unchanged when its numbers do (`Json.reread?_legible`). `Number.ReadsBack` says
this of a number, and `Number.legible_iff` that it is a matter of the numeral alone.
-/

namespace Goalbase

namespace Json

mutual

/-- What the text of the value is read as. -/
def reread? : Json → Option Json
  | .null => some .null
  | .bool b => some (.bool b)
  | .number n => n.reread?.map .number
  | .string s => some (.string s)
  | .array elements => (rereadElements? elements).map .array
  | .object members => (rereadMembers? members).map .object

def rereadElements? : List Json → Option (List Json)
  | [] => some []
  | j :: rest =>
    match reread? j, rereadElements? rest with
    | some j, some js => some (j :: js)
    | _, _ => none

def rereadMembers? : List (String × Json) → Option (List (String × Json))
  | [] => some []
  | (k, j) :: rest =>
    match reread? j, rereadMembers? rest with
    | some j, some ms => some ((k, j) :: ms)
    | _, _ => none

end

/-! ## The script of a value -/

mutual

/-- The script that the text of the value spells. -/
def script : Json → Script
  | .null => .null
  | .bool b => .bool b
  | .number n => .number n.reread?
  | .string s => .string (some s)
  | .array elements => .array (scripts elements)
  | .object members => .object (memberScripts members)

def scripts : List Json → List Script
  | [] => []
  | j :: rest => script j :: scripts rest

def memberScripts : List (String × Json) → List (Option String × Script)
  | [] => []
  | (k, j) :: rest => (some k, script j) :: memberScripts rest

end

mutual

theorem value?_script : ∀ j : Json, j.script.value? = j.reread?
  | .null => rfl
  | .bool _ => rfl
  | .number _ => rfl
  | .string _ => rfl
  | .array elements => by
    rw [script, Script.value?, values?_scripts elements, reread?]
  | .object members => by
    rw [script, Script.value?, memberValues?_memberScripts members, reread?]

theorem values?_scripts : ∀ js : List Json, Script.values? (scripts js) = rereadElements? js
  | [] => rfl
  | j :: rest => by
    rw [scripts, Script.values?, value?_script j, values?_scripts rest]
    rfl

theorem memberValues?_memberScripts : ∀ ms : List (String × Json),
    Script.memberValues? (memberScripts ms) = rereadMembers? ms
  | [] => rfl
  | (k, j) :: rest => by
    simp only [memberScripts, Script.memberValues?, value?_script j,
      memberValues?_memberScripts rest, rereadMembers?]
    cases j.reread? <;> cases rereadMembers? rest <;> rfl

end

open Token (Spells spell)

mutual

theorem spells_tokensOnto : ∀ (j : Json) {ts us : List Token}, Spells ts ((spell us).map some) →
    Spells (j.script.tokensOnto ts) ((spell (j.tokensOnto us)).map some)
  | .null, _, _, h => h.cons (t := .null) trivial
  | .bool b, _, _, h => h.cons (t := .bool b) trivial
  | .number n, _, _, h => h.cons (t := .number (some n)) trivial
  | .string s, _, _, h => h.cons (t := .string (some s)) trivial
  | .array [], _, _, h => (h.cons (t := .closeBracket) trivial).cons (t := .openBracket) trivial
  | .array (j :: js), _, _, h =>
    have hclose := spells_elementsOnto js (h.cons (t := .closeBracket) trivial)
    (spells_tokensOnto j hclose).cons (t := .openBracket) trivial
  | .object [], _, _, h => (h.cons (t := .closeBrace) trivial).cons (t := .openBrace) trivial
  | .object ((k, j) :: ms), _, _, h =>
    have hclose := spells_membersOnto ms (h.cons (t := .closeBrace) trivial)
    have hvalue := (spells_tokensOnto j hclose).cons (t := .colon) trivial
    (hvalue.cons (t := .string (some k)) trivial).cons (t := .openBrace) trivial

theorem spells_elementsOnto : ∀ (js : List Json) {ts us : List Token},
    Spells ts ((spell us).map some) →
      Spells (Script.elementsOnto ts (scripts js)) ((spell (elementsOnto us js)).map some)
  | [], _, _, h => h
  | j :: js, _, _, h =>
    (spells_tokensOnto j (spells_elementsOnto js h)).cons (t := .comma) trivial

theorem spells_membersOnto : ∀ (ms : List (String × Json)) {ts us : List Token},
    Spells ts ((spell us).map some) →
      Spells (Script.membersOnto ts (memberScripts ms)) ((spell (membersOnto us ms)).map some)
  | [], _, _, h => h
  | (k, j) :: ms, _, _, h =>
    have hvalue := (spells_tokensOnto j (spells_membersOnto ms h)).cons (t := .colon) trivial
    (hvalue.cons (t := .string (some k)) trivial).cons (t := .comma) trivial

end

/-- The text of a value spells its script. -/
theorem spells_chars (j : Json) : Spells j.script.tokens (j.chars.map some) :=
  spells_tokensOnto j .nil

end Json

/-- The outermost parts of what the text of a value is read as. -/
def Document.reread : Json → Document
  | .array js => .elements (js.map Json.reread?)
  | .object ms => .members (ms.map fun m => (some m.1, m.2.reread?))
  | j => .scalar j.reread?

theorem Document.document_script (j : Json) : j.script.document = reread j := by
  cases j with
  | array js =>
    simp only [Json.script, Script.document, reread, Document.elements.injEq]
    induction js with
    | nil => rfl
    | cons j js ih => rw [Json.scripts, List.map_cons, List.map_cons, Json.value?_script, ih]
  | object ms =>
    simp only [Json.script, Script.document, reread, Document.members.injEq]
    induction ms with
    | nil => rfl
    | cons m ms ih => rw [Json.memberScripts, List.map_cons, List.map_cons, Json.value?_script, ih]
  | _ => rfl

theorem Document.value?_reread (j : Json) : (reread j).value? = j.reread? := by
  rw [← document_script, Script.value?_document, Json.value?_script]

namespace Document

theorem ofGlyphs?_chars (j : Json) : ofGlyphs? (j.chars.map some) = some (reread j) := by
  rw [Script.ofGlyphs?_eq j.spells_chars, document_script]

/-- The text of a value is one JSON value. -/
theorem ofBytes?_text (j : Json) : ofBytes? (utf8 j.text) = some (reread j) := by
  rw [ofBytes?, utf8, Utf8.scan_encode, Json.text, String.toList_ofList, ofGlyphs?_chars]

end Document

theorem Json.ofText?_text (j : Json) : ofText? j.text = j.reread? := by
  rw [ofText?, text, String.toList_ofList, Document.ofGlyphs?_chars]
  exact Document.value?_reread j

/-! ## Values that read back -/

namespace Json

mutual

/-- All numbers of the value satisfy `P`. -/
def Numbers (P : Number → Prop) : Json → Prop
  | .number n => P n
  | .array elements => ElementNumbers P elements
  | .object members => MemberNumbers P members
  | _ => True

def ElementNumbers (P : Number → Prop) : List Json → Prop
  | [] => True
  | j :: rest => Numbers P j ∧ ElementNumbers P rest

def MemberNumbers (P : Number → Prop) : List (String × Json) → Prop
  | [] => True
  | (_, j) :: rest => Numbers P j ∧ MemberNumbers P rest

end

mutual

theorem Numbers.imp {P Q : Number → Prop} (h : ∀ n, P n → Q n) :
    ∀ j : Json, j.Numbers P → j.Numbers Q
  | .null, _ => trivial
  | .bool _, _ => trivial
  | .number n, hj => h n hj
  | .string _, _ => trivial
  | .array elements, hj => ElementNumbers.imp h elements hj
  | .object members, hj => MemberNumbers.imp h members hj

theorem ElementNumbers.imp {P Q : Number → Prop} (h : ∀ n, P n → Q n) :
    ∀ js : List Json, ElementNumbers P js → ElementNumbers Q js
  | [], _ => trivial
  | j :: rest, hj => ⟨Numbers.imp h j hj.1, ElementNumbers.imp h rest hj.2⟩

theorem MemberNumbers.imp {P Q : Number → Prop} (h : ∀ n, P n → Q n) :
    ∀ ms : List (String × Json), MemberNumbers P ms → MemberNumbers Q ms
  | [], _ => trivial
  | (_, j) :: rest, hj => ⟨Numbers.imp h j hj.1, MemberNumbers.imp h rest hj.2⟩

end

theorem elementNumbers_iff {P : Number → Prop} {js : List Json} :
    ElementNumbers P js ↔ ∀ j ∈ js, j.Numbers P := by
  induction js with
  | nil => exact ⟨fun _ _ h => (by cases h), fun _ => trivial⟩
  | cons j js ih => rw [ElementNumbers, ih, List.forall_mem_cons]

mutual

theorem reread?_legible : ∀ j : Json, j.Numbers Number.Legible → j.reread? = some j
  | .null, _ => rfl
  | .bool _, _ => rfl
  | .number n, hj => by
    rw [reread?, Number.Legible.reread? hj]
    rfl
  | .string _, _ => rfl
  | .array elements, hj => by
    rw [reread?, rereadElements?_legible elements hj]
    rfl
  | .object members, hj => by
    rw [reread?, rereadMembers?_legible members hj]
    rfl

theorem rereadElements?_legible : ∀ js : List Json, ElementNumbers Number.Legible js →
    rereadElements? js = some js
  | [], _ => rfl
  | j :: rest, hj => by
    simp only [rereadElements?, reread?_legible j hj.1, rereadElements?_legible rest hj.2]

theorem rereadMembers?_legible : ∀ ms : List (String × Json), MemberNumbers Number.Legible ms →
    rereadMembers? ms = some ms
  | [], _ => rfl
  | (k, j) :: rest, hj => by
    simp only [rereadMembers?, reread?_legible j hj.1, rereadMembers?_legible rest hj.2]

end

end Json

/-- The number is read back unchanged from its JSON text. -/
def Number.ReadsBack (n : Number) : Prop := Json.ofText? (Json.number n).text = some (.number n)

theorem Number.legible_iff (n : Number) : n.Legible ↔ n.ReadsBack := by
  rw [ReadsBack, Json.ofText?_text, Json.reread?]
  constructor
  · intro h
    rw [h.reread?]
    rfl
  · intro h
    obtain ⟨t, ht, -⟩ := n.exists_numeral
    rw [reread?_eq ht] at h
    obtain ⟨m, hm, he⟩ := Option.map_eq_some_iff.1 h
    cases he
    exact ⟨t, ht, hm⟩

/-- Only doubles can fail to be legible. -/
theorem Number.legible_of_readsBack {n : Number} (h : ∀ x, n = .double x → n.ReadsBack) :
    n.Legible := by
  cases n with
  | int z hz hz' => exact legible_int z hz hz'
  | double x => exact (legible_iff _).2 (h x rfl)

end Goalbase

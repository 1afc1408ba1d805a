import Goalbase.Json.Document
import Goalbase.Json.Text
import Goalbase.Tree

/-!
# Goalbase.Tree.Format

The stored form of goal trees: JSON in an envelope that names the version of the format.

Mathematical meaning: `Tree.encode` writes the stored part of a tree. `Tree.decode?` reads the whole
text as one JSON value first, then the version, and only then the goal. A node is an object with its
tag in the member `type` and its fields beside it in any order, other members being passed over, or a
list of the tag and the fields in order. Below the outermost node a tag may also be given as its
position among the tags.
-/

namespace Goalbase

/-- Why a text is not a stored tree, or a tree cannot be written. -/
inductive FormatError where
  | encode (text : String)
  | decode (text : String)
  | version (given : Nat)

namespace FormatError

def message : FormatError → String
  | .encode text => "Failed to encode goal tree: " ++ text
  | .decode text => "Failed to decode goal tree: " ++ text
  | .version n => "Unsupported goal format version: " ++ toString n

end FormatError

namespace Term

def toJson : Term → Json
  | .lit a => .object [("type", .string "value"), ("value", a.json)]
  | .var x => .object [("type", .string "variable"), ("name", .string x.name),
      ("value_type", .string x.kind.name)]

end Term

namespace Tree

def formatVersion : Nat := 1

mutual

def toJson : Tree → Json
  | .equal a b => .object [("type", .string "equal"), ("first", a.toJson), ("second", b.toJson)]
  | .and children => .object [("type", .string "and"), ("goals", .array (toJsons children))]
  | .or children => .object [("type", .string "or"), ("goals", .array (toJsons children))]
  | .constraint name params _ => .object [("type", .string "constraint"), ("name", .string name),
      ("parameters", .array (params.map Term.toJson))]

def toJsons : List Tree → List Json
  | [] => []
  | t :: rest => toJson t :: toJsons rest

end

def envelope (t : Tree) : Json :=
  .object [("format_version", .number (.ofWord (.ofNat formatVersion))), ("goal", t.toJson)]

def text (t : Tree) : String := t.envelope.text

def encode (t : Tree) : Bytes := utf8 t.text

end Tree

/-- Where a node stands: the outermost one gives its tag by name only. -/
inductive Position where
  | outermost
  | nested
  deriving DecidableEq

namespace Position

/-- The position of a tag among the tags of its kind of node. -/
def tag? (p : Position) (tags : List String) : Option Json → Option Nat
  | some (.string s) => tags.idxOf? s
  | some (.number (.int z _ _)) =>
    if p = .nested ∧ 0 ≤ z ∧ z < tags.length then some z.toNat else none
  | _ => none

end Position

def Json.fieldsOf? (members : List (String × Json)) : List String → Option (List Json)
  | [] => some []
  | name :: names =>
    match Json.member? name members, Json.fieldsOf? members names with
    | some j, some js => some (j :: js)
    | _, _ => none

namespace Kind

/-- A kind by its name, or as an object with the name as its only key and nothing in it. -/
def ofJson? : Json → Option Kind
  | .string s => ofName? s
  | .object [(s, .null)] => ofName? s
  | .object [(s, .object [])] => ofName? s
  | _ => none

end Kind

namespace Term

def tags : List String := ["value", "variable"]

def ofValue? : List Json → Option Term
  | [j] => some (.lit (.ofJson j))
  | _ => none

def ofVariable? : List Json → Option Term
  | [.string name, k] =>
    match Kind.ofJson? k with
    | some k => some (.var ⟨name, k⟩)
    | none => none
  | _ => none

/-- A term from the position of its tag and its fields. -/
def ofFields? (tag : Option Nat) (fields : List String → Option (List Json)) : Option Term :=
  match tag with
  | some 0 =>
    match fields ["value"] with
    | some js => ofValue? js
    | none => none
  | some 1 =>
    match fields ["name", "value_type"] with
    | some js => ofVariable? js
    | none => none
  | _ => none

def ofJson? : Json → Option Term
  | .object ms =>
    ofFields? (Position.nested.tag? tags (Json.member? "type" ms)) (Json.fieldsOf? ms)
  | .array (t :: js) => ofFields? (Position.nested.tag? tags (some t)) fun _ => some js
  | _ => none

def listOfJson? : Json → Option (List Term)
  | .array js => Utf8.allSome (js.map ofJson?)
  | _ => none

end Term

namespace Tree

def tags : List String := ["equal", "and", "or", "constraint"]

def ofEqual? : List Json → Option Tree
  | [a, b] =>
    match Term.ofJson? a, Term.ofJson? b with
    | some a, some b => some (.equal a b)
    | _, _ => none
  | _ => none

def ofConstraint? : List Json → Option Tree
  | [.string name, params] =>
    match Term.listOfJson? params with
    | some params => some (.constraint name params none)
    | none => none
  | _ => none

/-- A leaf from the position of its tag and its fields. -/
def leafOfFields? (tag : Option Nat) (fields : List String → Option (List Json)) : Option Tree :=
  match tag with
  | some 0 =>
    match fields ["first", "second"] with
    | some js => ofEqual? js
    | none => none
  | some 3 =>
    match fields ["name", "parameters"] with
    | some js => ofConstraint? js
    | none => none
  | _ => none

/-- An inner node with its children, or else a leaf. -/
def nodeOf? (tag : Option Nat) (children : Option (List Tree)) (leaf : Option Tree) :
    Option Tree :=
  match tag with
  | some 1 => children.map .and
  | some 2 => children.map .or
  | _ => leaf

mutual

/-- The tree that a value stores at a position. -/
def ofJson? (p : Position) : Json → Option Tree
  | .object ms =>
    let tag := p.tag? tags (Json.member? "type" ms)
    nodeOf? tag (childrenOf? ms) (leafOfFields? tag (Json.fieldsOf? ms))
  | .array (t :: js) =>
    let tag := p.tag? tags (some t)
    nodeOf? tag (onlyChildrenOf? js) (leafOfFields? tag fun _ => some js)
  | _ => none

def childrenOf? : List (String × Json) → Option (List Tree)
  | [] => none
  | (k, j) :: rest => if k = "goals" then listOfJson? j else childrenOf? rest

/-- The children in a list of fields that consists of them alone. -/
def onlyChildrenOf? : List Json → Option (List Tree)
  | [j] => listOfJson? j
  | _ => none

def listOfJson? : Json → Option (List Tree)
  | .array js => allOfJson? js
  | _ => none

def allOfJson? : List Json → Option (List Tree)
  | [] => some []
  | j :: rest =>
    match ofJson? .nested j, allOfJson? rest with
    | some t, some ts => some (t :: ts)
    | _, _ => none

end

/-- A version: an integer of 32 bits. -/
def version? : Json → Option Nat
  | .number (.int z _ _) => if 0 ≤ z ∧ z < 4294967296 then some z.toNat else none
  | _ => none

def ofDocument? (d : Document) : Except FormatError Tree :=
  match d.fields? ["format_version", "goal"] with
  | some [some v, some g] =>
    match version? v with
    | none => .error (.decode "the version is not a number of 32 bits")
    | some n =>
      if n = formatVersion then
        match ofJson? .outermost g.normal with
        | some t => .ok t
        | none => .error (.decode "the goal is not a goal tree")
      else .error (.version n)
  | _ => .error (.decode "the envelope is incomplete")

def decode? (bytes : Bytes) : Except FormatError Tree :=
  match Document.ofBytes? bytes with
  | some d => ofDocument? d
  | none => .error (.decode "the text is not one JSON value")

end Tree

end Goalbase

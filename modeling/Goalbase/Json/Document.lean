import Goalbase.Json.Token

/-!
# Goalbase.Json.Document

Reading JSON text.

Mathematical meaning: `Document.ofTokens?` accepts exactly the token lists that spell one JSON value.
The containers not yet closed are held in a list of frames, so the depth of a text is bounded by
nothing else. A value that contains a token which denotes nothing is unreadable and is represented
by `none`; the outermost parts of a document are kept apart, so that a reader who has no use for
some of them need not be able to read them.
-/

namespace Goalbase

/-- A text that spells one JSON value, as its outermost parts. -/
inductive Document where
  | scalar (value : Option Json)
  | elements (values : List (Option Json))
  | members (values : List (Option String × Option Json))

namespace Document

/-- The members whose keys and values are all readable, if all are. -/
def readableMembers? : List (Option String × Option Json) → Option (List (String × Json))
  | [] => some []
  | (some k, some j) :: rest =>
    match readableMembers? rest with
    | some ms => some ((k, j) :: ms)
    | none => none
  | _ :: _ => none

def value? : Document → Option Json
  | .scalar v => v
  | .elements vs =>
    match Utf8.allSome vs with
    | some js => some (.array js)
    | none => none
  | .members ms =>
    match readableMembers? ms with
    | some js => some (.object js)
    | none => none

def ofJson : Json → Document
  | .array js => .elements (js.map some)
  | .object ms => .members (ms.map fun m => (some m.1, some m.2))
  | j => .scalar (some j)

/-- A container that waits for a value: what it holds already, in reverse, and for an object the
key of the value. -/
inductive Frame where
  | elements (done : List (Option Json))
  | members (done : List (Option String × Option Json)) (key : Option String)

/-- What must come next, with the contents so far of the container that it belongs to. -/
inductive Expect where
  | value
  | firstElement
  | afterElement (done : List (Option Json))
  | firstKey
  | key (done : List (Option String × Option Json))
  | colon (done : List (Option String × Option Json)) (key : Option String)
  | afterMember (done : List (Option String × Option Json))
  | nothing (document : Document)

/-- A reader between two tokens. -/
structure Reader where
  frames : List Frame
  expect : Expect

/-- A finished value goes to the innermost open container; without one it is the document. -/
def Reader.supply (frames : List Frame) (d : Document) : Reader :=
  match frames with
  | [] => ⟨[], .nothing d⟩
  | .elements done :: frames => ⟨frames, .afterElement (d.value? :: done)⟩
  | .members done key :: frames => ⟨frames, .afterMember ((key, d.value?) :: done)⟩

/-- A token where a value must start. -/
def Reader.begin? (frames : List Frame) : Token → Option Reader
  | .openBracket => some ⟨frames, .firstElement⟩
  | .openBrace => some ⟨frames, .firstKey⟩
  | .null => some (.supply frames (.scalar (some .null)))
  | .bool b => some (.supply frames (.scalar (some (.bool b))))
  | .number n => some (.supply frames (.scalar (n.map .number)))
  | .string s => some (.supply frames (.scalar (s.map .string)))
  | _ => none

def Reader.step? (r : Reader) (t : Token) : Option Reader :=
  match r.expect with
  | .value => Reader.begin? r.frames t
  | .firstElement =>
    if t = .closeBracket then some (.supply r.frames (.elements []))
    else Reader.begin? (.elements [] :: r.frames) t
  | .afterElement done =>
    if t = .closeBracket then some (.supply r.frames (.elements done.reverse))
    else if t = .comma then some ⟨.elements done :: r.frames, .value⟩
    else none
  | .firstKey =>
    match t with
    | .closeBrace => some (.supply r.frames (.members []))
    | .string k => some ⟨r.frames, .colon [] k⟩
    | _ => none
  | .key done =>
    match t with
    | .string k => some ⟨r.frames, .colon done k⟩
    | _ => none
  | .colon done key =>
    if t = .colon then some ⟨.members done key :: r.frames, .value⟩ else none
  | .afterMember done =>
    if t = .closeBrace then some (.supply r.frames (.members done.reverse))
    else if t = .comma then some ⟨r.frames, .key done⟩
    else none
  | .nothing _ => none

def Reader.run? (r : Reader) : List Token → Option Reader
  | [] => some r
  | t :: rest =>
    match r.step? t with
    | some r' => r'.run? rest
    | none => none

def ofTokens? (tokens : List Token) : Option Document :=
  match Reader.run? ⟨[], .value⟩ tokens with
  | some ⟨_, .nothing d⟩ => some d
  | _ => none

def ofGlyphs? (gs : List Glyph) : Option Document :=
  match Token.lex? gs with
  | some tokens => ofTokens? tokens
  | none => none

def ofBytes? (bytes : Bytes) : Option Document := ofGlyphs? (Utf8.scan bytes)

/-- The values of named fields, in the order of the names. An object gives each field by its name:
a field may be missing but not repeated, and other members are passed over, readable or not. A list
gives the fields in order and may end early. Fields that are given must be readable. -/
def fields? (names : List String) : Document → Option (List (Option Json))
  | .scalar _ => none
  | .elements values =>
    if names.length < values.length then none
    else
      match Utf8.allSome values with
      | some js => some (js.map some ++ List.replicate (names.length - js.length) none)
      | none => none
  | .members ms =>
    if ms.all (fun m => m.1.isSome) then
      Utf8.allSome (names.map fun name =>
        match ms.filter (fun m => m.1 == some name) with
        | [] => some none
        | [(_, some j)] => some (some j)
        | _ => none)
    else none

end Document

def Json.ofText? (text : String) : Option Json :=
  match Document.ofGlyphs? (text.toList.map some) with
  | some d => d.value?
  | none => none

end Goalbase

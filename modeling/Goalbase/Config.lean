import Goalbase.Json.Document
import Goalbase.Log
import Goalbase.Store

/-!
# Goalbase.Config

The configuration of an engine.

Mathematical meaning: a configuration is read from JSON, where every field has a default, and is then
validated. Of several flaws the first in the order of `Config.validate` is reported.
-/

namespace Goalbase

inductive ConfigError where
  | read (path text : String)
  | parse (text : String)
  | invalid (text : String)

namespace ConfigError

def message : ConfigError → String
  | .read path text => "Failed to read config " ++ path ++ ": " ++ text
  | .parse text => "Invalid config JSON: " ++ text
  | .invalid text => "Invalid config: " ++ text

end ConfigError

structure Config where
  dataDirectory : String
  /-- Segments put before every path. -/
  basePath : Path
  /-- The greatest number of results that a selection collects. -/
  selectLimit : Option Nat
  verifyChecksums : Bool
  logQueries : Bool
  deriving DecidableEq

namespace Config

def default : Config := ⟨"./kanrendb-data", [], none, true, false⟩

instance : Inhabited Config := ⟨default⟩

def fieldNames : List String :=
  ["data_dir", "namespace", "select_limit", "verify_checksums", "log_queries"]

def string? : Json → Option String
  | .string s => some s
  | _ => none

def bool? : Json → Option Bool
  | .bool b => some b
  | _ => none

def strings? : Json → Option (List String)
  | .array js => Utf8.allSome (js.map string?)
  | _ => none

/-- A limit: `null` or an unsigned word. -/
def limit? : Json → Option (Option Nat)
  | .null => some none
  | .number (.int z _ _) => if 0 ≤ z then some (some z.toNat) else none
  | _ => none

/-- A field by its reader, or its default where it is missing. -/
def field? {α : Type} (read? : Json → Option α) (missing : α) : Option Json → Option α
  | none => some missing
  | some j => read? j

def ofDocument? (d : Document) : Option Config :=
  match d.fields? fieldNames with
  | some [directory, base, limit, verify, log] =>
    match field? string? default.dataDirectory directory, field? strings? default.basePath base,
      field? limit? default.selectLimit limit, field? bool? default.verifyChecksums verify,
      field? bool? default.logQueries log with
    | some directory, some base, some limit, some verify, some log =>
      some ⟨directory, base, limit, verify, log⟩
    | _, _, _, _, _ => none
  | _ => none

/-- Refuses an empty data directory, a limit of zero and a base path with an invalid segment, in
this order. -/
def validate (c : Config) : Except ConfigError Unit :=
  if c.dataDirectory.isEmpty then .error (.invalid "data_dir must not be empty")
  else if c.selectLimit = some 0 then .error (.invalid "select_limit must be > 0")
  else
    match checkPath c.basePath with
    | .error e => .error (.invalid ("namespace: " ++ e.message))
    | .ok () => .ok ()

/-- A configuration from the content of a file, `none` for a file that cannot be read, and what is
logged about it. -/
def load (path : String) (content : Option Bytes) : Except ConfigError Config × List Entry :=
  match content with
  | none => (.error (.read path "the file cannot be read"), [])
  | some bytes =>
    match Utf8.decode? bytes with
    | none => (.error (.read path "the file is not text"), [])
    | some cs =>
      match Document.ofGlyphs? (cs.map some) with
      | none => (.error (.parse "the text is not one JSON value"), [])
      | some d =>
        match ofDocument? d with
        | none => (.error (.parse "a field has no value of its type"), [])
        | some c =>
          match c.validate with
          | .error e => (.error e, [])
          | .ok () => (.ok c, [Event.configLoaded.entry [("data_dir", c.dataDirectory)]])

end Config

end Goalbase

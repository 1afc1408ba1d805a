import Goalbase.Record
import Goalbase.Text.Quoted

/-!
# Goalbase.Store

Stores of byte records under a path and a key.

Mathematical meaning: a path is a list of segments. Segments and keys are names: not empty, not
starting with a dot and without separators. Keys of one path are ordered code point by code point,
which is the order of their bytes. An operation reports the first invalid segment or else the
invalid key before it does anything.
-/

namespace Goalbase

inductive StoreError where
  | invalidSegment (segment : String)
  | invalidKey (key : String)
  | io (path message : String)
  | checksumMismatch (key : String)
  | corrupted (key reason : String)

namespace StoreError

def message : StoreError → String
  | .invalidSegment s => "Invalid path segment: " ++ quoted s
  | .invalidKey k => "Invalid key: " ++ quoted k
  | .io path text => "I/O error at " ++ path ++ ": " ++ text
  | .checksumMismatch key => "Checksum mismatch for key " ++ key
  | .corrupted key reason => "Corrupted record for key " ++ key ++ ": " ++ reason

/-- Whether stored data can no longer be trusted. -/
def isFatal : StoreError → Bool
  | .checksumMismatch _ => true
  | .corrupted _ _ => true
  | _ => false

/-- The report of a damaged record. -/
def ofDamage (key : String) : Damage → StoreError
  | .truncatedHeader => .corrupted key "truncated header"
  | .badMagic => .corrupted key "bad magic"
  | .lengthMismatch => .corrupted key "length mismatch"
  | .checksumMismatch => .checksumMismatch key

end StoreError

abbrev Path := List String

def isName (name : String) : Bool :=
  match name.toList with
  | [] => false
  | c :: cs => c != '.' && (c :: cs).all fun d => d != '/' && d != '\\' && d != '\x00'

def checkPath (path : Path) : Except StoreError Unit :=
  match path.find? (fun s => !isName s) with
  | some s => .error (.invalidSegment s)
  | none => .ok ()

def checkKey (key : String) : Except StoreError Unit :=
  if isName key then .ok () else .error (.invalidKey key)

def checkPlace (path : Path) (key : String) : Except StoreError Unit :=
  match checkPath path with
  | .error e => .error e
  | .ok () => checkKey key

/-- A store of records. A write that fails may leave traces that no read shows. -/
class KeyStore (σ : Type) where
  read : σ → Path → String → Except StoreError (Option Bytes)
  /-- The entries with `first ≤ key < last`, in ascending order of the keys. -/
  readRange : σ → (path : Path) → (first last : String) → Except StoreError (List (String × Bytes))
  write : σ → Path → String → Bytes → Except StoreError Unit × σ

def sortNames (names : List String) : List String := names.mergeSort fun a b => decide (a ≤ b)

def inRange (first last key : String) : Bool := decide (first ≤ key) && decide (key < last)

end Goalbase

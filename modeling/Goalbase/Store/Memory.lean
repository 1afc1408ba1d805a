import Goalbase.Store
import Goalbase.Table

/-!
# Goalbase.Store.Memory

Records held in memory.

Mathematical meaning: a finite map from places, that is paths with keys, to payloads.
-/

namespace Goalbase

structure MemoryStore where
  records : Table (Path × String) Bytes

namespace MemoryStore

def empty : MemoryStore := ⟨.empty⟩

def read (s : MemoryStore) (path : Path) (key : String) : Except StoreError (Option Bytes) :=
  match checkPlace path key with
  | .error e => .error e
  | .ok () => .ok (s.records.get? (path, key))

/-- The keys of a path, in the order they were first written. -/
def keysOf (s : MemoryStore) (path : Path) : List String :=
  (s.records.keys.filter fun p => p.1 == path).map Prod.snd

def readRange (s : MemoryStore) (path : Path) (first last : String) :
    Except StoreError (List (String × Bytes)) :=
  match checkPath path with
  | .error e => .error e
  | .ok () =>
    .ok ((sortNames ((s.keysOf path).filter (inRange first last))).filterMap fun key =>
      match s.records.get? (path, key) with
      | some payload => some (key, payload)
      | none => none)

def write (s : MemoryStore) (path : Path) (key : String) (payload : Bytes) :
    Except StoreError Unit × MemoryStore :=
  match checkPlace path key with
  | .error e => (.error e, s)
  | .ok () => (.ok (), ⟨s.records.insert (path, key) payload⟩)

instance : KeyStore MemoryStore := ⟨read, readRange, write⟩

end MemoryStore

end Goalbase

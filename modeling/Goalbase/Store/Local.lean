import Goalbase.Identifier
import Goalbase.Store.Disk

/-!
# Goalbase.Store.Local

Records held in files.

Mathematical meaning: a path has one directory per segment below the root, and the records of a path
lie in its directory `.keys`, one file for each key. Since names do not start with a dot, that
directory and the temporary files in it are no segments and no keys. A write fills a temporary file
and then renames it over the record, so that the rename is the only step that a reader can see.
-/

namespace Goalbase

structure LocalStore where
  disk : Disk
  root : Location
  verify : Bool
  /-- The serial number of the next temporary file. -/
  serial : Nat

namespace LocalStore

def keysDirectory (root : Location) (path : Path) : Location := root ++ path ++ [".keys"]

def recordFile (root : Location) (path : Path) (key : String) : Location :=
  keysDirectory root path ++ [key]

def temporaryFile (root : Location) (path : Path) (key : String) (serial : Nat) : Location :=
  keysDirectory root path ++ ["." ++ key ++ "." ++ Identifier.ofSerial serial ++ ".tmp"]

def display (l : Location) : String := String.intercalate "/" l

def ioError (l : Location) (e : DiskError) : StoreError := .io (display l) e.message

def readRecord (s : LocalStore) (l : Location) (key : String) :
    Except StoreError (Option Bytes) :=
  match s.disk.contentAt l with
  | .error .notFound => .ok none
  | .error e => .error (ioError l e)
  | .ok content =>
    match Record.decode? s.verify content with
    | .error damage => .error (.ofDamage key damage)
    | .ok payload => .ok (some payload)

/-- The keys in a directory, in ascending order; a missing directory has none. -/
def listKeys (s : LocalStore) (l : Location) : Except StoreError (List String) :=
  match s.disk.list l with
  | .error .notFound => .ok []
  | .error e => .error (ioError l e)
  | .ok names => .ok (sortNames (names.filter fun n => n.toList.head? != some '.'))

def read (s : LocalStore) (path : Path) (key : String) : Except StoreError (Option Bytes) :=
  match checkPlace path key with
  | .error e => .error e
  | .ok () => s.readRecord (recordFile s.root path key) key

/-- The records of the given keys; a key without a record is passed over. -/
def readAll (s : LocalStore) (path : Path) :
    List String → Except StoreError (List (String × Bytes))
  | [] => .ok []
  | key :: rest =>
    match s.readRecord (recordFile s.root path key) key with
    | .error e => .error e
    | .ok found =>
      match s.readAll path rest with
      | .error e => .error e
      | .ok entries =>
        match found with
        | some payload => .ok ((key, payload) :: entries)
        | none => .ok entries

def readRange (s : LocalStore) (path : Path) (first last : String) :
    Except StoreError (List (String × Bytes)) :=
  match checkPath path with
  | .error e => .error e
  | .ok () =>
    if first < last then
      match s.listKeys (keysDirectory s.root path) with
      | .error e => .error e
      | .ok keys => s.readAll path (keys.filter (inRange first last))
    else .ok []

def writeSteps (root : Location) (path : Path) (key : String) (payload : Bytes) (serial : Nat) :
    List DiskStep :=
  let temporary := temporaryFile root path key serial
  Disk.directorySteps (keysDirectory root path) ++
    [.createFile temporary, .append temporary (Record.encode payload), .sync temporary,
      .rename temporary (recordFile root path key)]

def write (s : LocalStore) (path : Path) (key : String) (payload : Bytes) :
    Except StoreError Unit × LocalStore :=
  match checkPlace path key with
  | .error e => (.error e, s)
  | .ok () =>
    let (failure, disk) := s.disk.runSteps (writeSteps s.root path key payload s.serial)
    let after : LocalStore := { s with disk := disk, serial := s.serial + 1 }
    match failure with
    | some e => (.error (ioError (recordFile s.root path key) e), after)
    | none => (.ok (), after)

instance : KeyStore LocalStore := ⟨read, readRange, write⟩

end LocalStore

end Goalbase

import Goalbase.Store
import Goalbase.Table

/-!
# Goalbase.Store.Disk

A tree of directories and files.

Mathematical meaning: a disk is a finite map from locations, lists of names below an existing top
directory, to nodes. A location is found by walking down from the top: every name on the way must
belong to a directory and be short enough. A `DiskStep` is a change that happens as a whole or not
at all, and `Disk.runSteps` stops at the first one that fails.
-/

namespace Goalbase

abbrev Location := List String

inductive Node where
  | directory
  | file (content : Bytes)

structure Disk where
  nodes : Table Location Node
  /-- The greatest number of bytes in a name, where there is a limit. -/
  nameLimit : Option Nat

inductive DiskError where
  | notFound
  | notDirectory
  | isDirectory
  | nameTooLong
  deriving DecidableEq

def DiskError.message : DiskError → String
  | .notFound => "no such file or directory"
  | .notDirectory => "not a directory"
  | .isDirectory => "is a directory"
  | .nameTooLong => "file name too long"

namespace Disk

def empty (nameLimit : Option Nat) : Disk := ⟨.empty, nameLimit⟩

def tooLong (d : Disk) (name : String) : Bool :=
  match d.nameLimit with
  | some limit => decide (limit < name.utf8ByteSize)
  | none => false

def walk (d : Disk) (place : Location) (node : Node) : Location → Except DiskError Node
  | [] => .ok node
  | name :: rest =>
    match node with
    | .file _ => .error .notDirectory
    | .directory =>
      if d.tooLong name then .error .nameTooLong
      else
        match d.nodes.get? (place ++ [name]) with
        | none => .error .notFound
        | some next => d.walk (place ++ [name]) next rest

def find (d : Disk) (l : Location) : Except DiskError Node := d.walk [] .directory l

def contentAt (d : Disk) (l : Location) : Except DiskError Bytes :=
  match d.find l with
  | .error e => .error e
  | .ok .directory => .error .isDirectory
  | .ok (.file content) => .ok content

/-- The last name of a location directly inside a directory. -/
def childOf? (directory : Location) (l : Location) : Option String :=
  match l.getLast? with
  | some name => if l = directory ++ [name] then some name else none
  | none => none

def list (d : Disk) (l : Location) : Except DiskError (List String) :=
  match d.find l with
  | .error e => .error e
  | .ok (.file _) => .error .notDirectory
  | .ok .directory => .ok (d.nodes.keys.filterMap (childOf? l))

def files (d : Disk) : List Location :=
  d.nodes.entries.filterMap fun e =>
    match e.2 with
    | .file _ => some e.1
    | .directory => none

/-- Puts a node into an existing directory. -/
def place (d : Disk) (l : Location) (node : Node) : Except DiskError Disk :=
  match d.find l.dropLast with
  | .error e => .error e
  | .ok (.file _) => .error .notDirectory
  | .ok .directory =>
    match l.getLast? with
    | none => .error .isDirectory
    | some name =>
      if d.tooLong name then .error .nameTooLong
      else .ok { d with nodes := d.nodes.insert l node }

end Disk

inductive DiskStep where
  | makeDirectory (l : Location)
  /-- Makes an empty file, emptying one that is there. -/
  | createFile (l : Location)
  | append (l : Location) (bytes : Bytes)
  /-- Waits until a file is on the medium. -/
  | sync (l : Location)
  | rename (l target : Location)

namespace DiskStep

def run (d : Disk) : DiskStep → Except DiskError Disk
  | .makeDirectory l =>
    match d.find l with
    | .ok .directory => .ok d
    | .ok (.file _) => .error .notDirectory
    | .error .notFound => d.place l .directory
    | .error e => .error e
  | .createFile l =>
    match d.find l with
    | .ok .directory => .error .isDirectory
    | .ok (.file _) => .ok { d with nodes := d.nodes.insert l (.file []) }
    | .error .notFound => d.place l (.file [])
    | .error e => .error e
  | .append l bytes =>
    match d.contentAt l with
    | .error e => .error e
    | .ok content => .ok { d with nodes := d.nodes.insert l (.file (content ++ bytes)) }
  | .sync l =>
    match d.contentAt l with
    | .error e => .error e
    | .ok _ => .ok d
  | .rename l target =>
    match d.contentAt l with
    | .error e => .error e
    | .ok content =>
      let moved : Disk := { d with nodes := d.nodes.erase l }
      match d.find target with
      | .ok .directory => .error .isDirectory
      | .ok (.file _) => .ok { d with nodes := moved.nodes.insert target (.file content) }
      | .error .notFound => moved.place target (.file content)
      | .error e => .error e

end DiskStep

namespace Disk

/-- Step after step; the disk is left as it was before the first step that fails. -/
def runSteps (d : Disk) : List DiskStep → Option DiskError × Disk
  | [] => (none, d)
  | step :: rest =>
    match step.run d with
    | .error e => (some e, d)
    | .ok d => d.runSteps rest

def directorySteps (l : Location) : List DiskStep :=
  (List.range l.length).map fun n => .makeDirectory (l.take (n + 1))

def fileSteps (l : Location) (content : Bytes) : List DiskStep :=
  directorySteps l.dropLast ++ [.createFile l, .append l content]

/-- Writes a file with its directories, or changes nothing. -/
def putFile (d : Disk) (l : Location) (content : Bytes) : Except DiskError Disk :=
  match d.runSteps (fileSteps l content) with
  | (none, after) => .ok after
  | (some e, _) => .error e

def editFile (d : Disk) (l : Location) (edit : Bytes → Bytes) : Except DiskError Disk :=
  match d.contentAt l with
  | .error e => .error e
  | .ok content => .ok { d with nodes := d.nodes.insert l (.file (edit content)) }

end Disk

end Goalbase

import Goalbase.Config
import Goalbase.Counters
import Goalbase.Identifier
import Goalbase.Store.Local
import Goalbase.Store.Memory
import Goalbase.Stream
import Goalbase.Tree.Conversion
import Goalbase.Tree.Format

/-!
# Goalbase.Engine

The engine: running goal trees and keeping them in a store.

Mathematical meaning: an engine is a value that holds its configuration, its registry and its
counters; the store is kept beside it, since several engines may share one. An operation gives a
`Reply`: the engine afterwards, what was logged, what happened in the search, and a result or an
error.
-/

namespace Goalbase

inductive EngineError where
  | conversion (cause : ConversionError)
  | build (cause : BuildError)
  | fault (cause : Fault)
  | format (cause : FormatError)
  | store (cause : StoreError)
  | config (cause : ConfigError)

namespace EngineError

/-- The code of an error: the part it comes from and its cause. -/
def code : EngineError → String
  | .fault (.incomparable _ _) => "logic.incomparable_values"
  | .build (.incomparableKinds _ _) => "constraint.incomparable_types"
  | .build (.expectation _) => "constraint.invalid_expectation"
  | .build (.arity _ _ _) => "constraint.wrong_arity"
  | .build (.parameter _ _) => "constraint.invalid_parameter"
  | .conversion (.unknownConstraint _) => "converter.unknown_constraint"
  | .conversion (.build _ _) => "converter.constraint"
  | .conversion (.missingGoal _) => "converter.missing_goal"
  | .conversion (.malformed _) => "converter.malformed"
  | .format (.encode _) => "codec.encode"
  | .format (.decode _) => "codec.decode"
  | .format (.version _) => "codec.unsupported_version"
  | .store (.invalidSegment _) => "storage.invalid_segment"
  | .store (.invalidKey _) => "storage.invalid_key"
  | .store (.io _ _) => "storage.io"
  | .store (.checksumMismatch _) => "storage.checksum_mismatch"
  | .store (.corrupted _ _) => "storage.corrupted"
  | .config (.read _ _) => "config.read"
  | .config (.parse _) => "config.parse"
  | .config (.invalid _) => "config.invalid"

def message : EngineError → String
  | .conversion e => e.message
  | .build e => e.message
  | .fault e => e.message
  | .format e => e.message
  | .store e => e.message
  | .config e => e.message

/-- An error is fatal when the same input fails in the same way until the registry, the goal or the
stored data is mended. -/
def severity : EngineError → Severity
  | .conversion e => if e.isFatal then .fatal else .error
  | .fault _ => .fatal
  | .store e => if e.isFatal then .fatal else .error
  | _ => .error

def isFatal (e : EngineError) : Bool := e.severity == .fatal

end EngineError

structure Engine where
  config : Config
  registry : Registry
  counters : Counters
  /-- The serial number of the next query and of the next constraint that is rebuilt. -/
  serial : Nat

structure Reply (α : Type) where
  engine : Engine
  log : List Entry
  trace : List Observation
  result : Except EngineError α

namespace Reply

variable {α β : Type}

def andThen (r : Reply α) (f : Engine → α → Reply β) : Reply β :=
  match r.result with
  | .error e => ⟨r.engine, r.log, r.trace, .error e⟩
  | .ok a =>
    let next := f r.engine a
    ⟨next.engine, r.log ++ next.log, r.trace ++ next.trace, next.result⟩

end Reply

namespace Engine

/-- An engine over a store that the caller keeps. Engines whose states meet need serial numbers that
do not. -/
def withConfig (config : Config) (libraries : List Library) (serial : Nat) :
    Except ConfigError Engine :=
  match config.validate with
  | .error e => .error e
  | .ok () => .ok ⟨config, .standardWith libraries, .zero, serial⟩

def inMemory (libraries : List Library) (serial : Nat) : Engine :=
  ⟨.default, .standardWith libraries, .zero, serial⟩

def answer {α : Type} (e : Engine) (result : Except EngineError α) : Reply α :=
  ⟨e, [], [], result⟩

/-- Entries that are only written when queries are logged. -/
def entries (e : Engine) (log : List Entry) : List Entry := if e.config.logQueries then log else []

def queryId (e : Engine) : String := Identifier.ofSerial e.serial

def failureEntry (queryId : String) : ConversionError → Entry
  | .unknownConstraint name =>
    Event.unknownConstraint.entry [("constraint", name), ("query_id", queryId)]
  | e => ⟨.error, Event.queryRejected.text, [("error", e.message), ("query_id", queryId)]⟩

/-- Converts a tree under a query's identifier, counting and logging. -/
def convertAs (e : Engine) (queryId : String) (t : Tree) : Reply Goal :=
  match t.convert? e.registry e.serial with
  | .ok (g, serial) =>
    { engine := { e with counters := e.counters.countConversion, serial := serial }
      log := e.entries [Event.queryConverted.entry [("query_id", queryId)]]
      trace := []
      result := .ok g }
  | .error cause =>
    { engine := { e with counters := e.counters.countFailure }
      log := [failureEntry queryId cause]
      trace := []
      result := .error (.conversion cause) }

def nextQuery (e : Engine) : Engine := { e with serial := e.serial + 1 }

def convert (e : Engine) (t : Tree) : Reply Goal := e.nextQuery.convertAs e.queryId t

/-- The stream of a tree on a state. Whether the tree can be converted is known at once. -/
def runWith (e : Engine) (t : Tree) (s : State) : Reply Stream :=
  let started := { e.nextQuery with counters := e.counters.countQuery }
  let start := e.entries [Event.queryStart.entry [("goal", t.kind), ("query_id", e.queryId)]]
  let converted := started.convertAs e.queryId t
  { engine := converted.engine
    log := start ++ converted.log
    trace := match converted.result with
      | .ok g => (g.apply s).trace
      | .error _ => []
    result := match converted.result with
      | .ok g => .ok (g.apply s).value
      | .error cause => .error cause }

def run (e : Engine) (t : Tree) : Reply Stream := e.runWith t .empty

/-- The path of a record: the base path and the one given. -/
def fullPath (e : Engine) (path : Path) : Path := e.config.basePath ++ path

/-- A failure of the store; damage is logged. -/
def storeFailure {α : Type} (e : Engine) (key : String) (cause : StoreError) : Reply α :=
  { engine := e
    log := if cause.isFatal then
        [Event.storageCorruption.entry [("error", cause.message), ("key", key)]]
      else []
    trace := []
    result := .error (.store cause) }

variable {σ : Type} [KeyStore σ]

def write (e : Engine) (store : σ) (path : Path) (key : String) (t : Tree) : Reply Unit × σ :=
  let bytes := t.encode
  let (written, store) := KeyStore.write store (e.fullPath path) key bytes
  match written with
  | .error cause => (e.storeFailure key cause, store)
  | .ok () =>
    ({ engine := { e with counters := e.counters.countWrite (.ofNat bytes.length) }
       log := e.entries [Event.goalWritten.entry [("bytes", toString bytes.length), ("key", key),
         ("path", String.intercalate "/" (e.fullPath path))]]
       trace := []
       result := .ok () }, store)

/-- The trees stored under a key: one or none. -/
def read (e : Engine) (store : σ) (path : Path) (key : String) : Reply (List Tree) :=
  match KeyStore.read store (e.fullPath path) key with
  | .error cause => e.storeFailure key cause
  | .ok none => ⟨e, e.entries [Event.goalMissing.entry [("key", key)]], [], .ok []⟩
  | .ok (some bytes) =>
    match Tree.decode? bytes with
    | .error cause => e.answer (.error (.format cause))
    | .ok t =>
      { engine := { e with counters := e.counters.countRead 1 }
        log := e.entries [Event.goalRead.entry [("goal", t.kind), ("key", key)]]
        trace := []
        result := .ok [t] }

/-- The trees of all records, or the error of the first that stores none. -/
def decodeAll : List (String × Bytes) → Except FormatError (List Tree)
  | [] => .ok []
  | (_, bytes) :: rest =>
    match Tree.decode? bytes with
    | .error cause => .error cause
    | .ok t =>
      match decodeAll rest with
      | .error cause => .error cause
      | .ok ts => .ok (t :: ts)

/-- The trees stored under the keys of a half-open range, in ascending order of the keys. -/
def readRange (e : Engine) (store : σ) (path : Path) (first last : String) : Reply (List Tree) :=
  match KeyStore.readRange store (e.fullPath path) first last with
  | .error cause => e.storeFailure first cause
  | .ok found =>
    match decodeAll found with
    | .error cause => e.answer (.error (.format cause))
    | .ok ts =>
      { engine := { e with counters := e.counters.countRead (.ofNat ts.length) }
        log := e.entries [Event.rangeRead.entry [("begin", first), ("count", toString ts.length),
          ("end", last)]]
        trace := []
        result := .ok ts }

end Engine

end Goalbase

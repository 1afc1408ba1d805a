import Goalbase.Json.Token

/-!
# Goalbase.Log

Log entries.

Mathematical meaning: an entry is written as one line that is one JSON object: the event, the
severity and the time, and then the fields in ascending order of their keys, where fields with equal
keys keep their order. Entries that report an error go to the standard error stream, others to the
standard output stream.
-/

namespace Goalbase

inductive Severity where
  | info
  | error
  | fatal
  deriving DecidableEq

namespace Severity

def name : Severity → String
  | .info => "INFO"
  | .error => "ERROR"
  | .fatal => "FATAL"

def number : Severity → Nat
  | .info => 1
  | .error => 3
  | .fatal => 4

def compare (a b : Severity) : Ordering := Ord.compare a.number b.number

end Severity

structure Entry where
  severity : Severity
  event : String
  fields : List (String × String)

namespace Entry

def isError (e : Entry) : Bool := e.severity != .info

def sortedFields (e : Entry) : List (String × String) :=
  e.fields.mergeSort fun a b => decide (a.1 ≤ b.1)

def memberChars (key value : String) : List Char := Token.quote key ++ ':' :: Token.quote value

def membersChars : List (String × String) → List Char
  | [] => []
  | [m] => memberChars m.1 m.2
  | m :: rest => memberChars m.1 m.2 ++ ',' :: membersChars rest

/-- The line of an entry at a time, with its newline. -/
def line (e : Entry) (time : String) : String :=
  String.ofList ('\x7b' ::
    (membersChars (("event", e.event) :: ("severity", e.severity.name) :: ("ts", time)
      :: e.sortedFields) ++ ['\x7d', '\n']))

end Entry

inductive Event where
  | configLoaded
  | queryStart
  | queryConverted
  | queryRejected
  | unknownConstraint
  | goalWritten
  | goalRead
  | goalMissing
  | rangeRead
  | storageCorruption
  deriving DecidableEq

namespace Event

def text : Event → String
  | .configLoaded => "CONFIG_LOADED"
  | .queryStart => "QUERY_BEGIN"
  | .queryConverted => "QUERY_CONVERTED"
  | .queryRejected => "QUERY_REJECTED"
  | .unknownConstraint => "UNKNOWN_CONSTRAINT"
  | .goalWritten => "GOAL_WRITTEN"
  | .goalRead => "GOAL_READ"
  | .goalMissing => "GOAL_MISSING"
  | .rangeRead => "GOAL_RANGE_READ"
  | .storageCorruption => "STORAGE_CORRUPTION"

/-- Whether the event says that stored or registered data cannot be used. -/
def isFatal : Event → Bool
  | .unknownConstraint => true
  | .storageCorruption => true
  | _ => false

def entry (e : Event) (fields : List (String × String)) : Entry :=
  ⟨if e.isFatal then .fatal else .info, e.text, fields⟩

end Event

end Goalbase

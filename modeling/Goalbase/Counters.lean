/-!
# Goalbase.Counters

The counters of an engine.

Mathematical meaning: six words of 64 bits, which count modulo `2^64`.
-/

namespace Goalbase

structure Counters where
  queriesRun : UInt64
  conversions : UInt64
  conversionFailures : UInt64
  goalsWritten : UInt64
  goalsRead : UInt64
  bytesWritten : UInt64
  deriving DecidableEq

namespace Counters

def zero : Counters := ⟨0, 0, 0, 0, 0, 0⟩

def countQuery (c : Counters) : Counters := { c with queriesRun := c.queriesRun + 1 }

def countConversion (c : Counters) : Counters := { c with conversions := c.conversions + 1 }

def countFailure (c : Counters) : Counters :=
  { c with conversionFailures := c.conversionFailures + 1 }

def countRead (c : Counters) (goals : UInt64) : Counters :=
  { c with goalsRead := c.goalsRead + goals }

/-- One goal written in the given number of bytes. -/
def countWrite (c : Counters) (bytes : UInt64) : Counters :=
  { c with goalsWritten := c.goalsWritten + 1, bytesWritten := c.bytesWritten + bytes }

end Counters

end Goalbase

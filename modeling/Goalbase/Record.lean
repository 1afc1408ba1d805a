import Goalbase.Checksum

/-!
# Goalbase.Record

The framing of a stored payload: a magic number, a checksum, a length and the payload.

Mathematical meaning: `Record.encode` puts a header of sixteen bytes before the payload.
`Record.decode?` finds the first of these faults: a header that is cut short, a wrong magic number, a
length other than that of the payload, and, where it is to be verified, a checksum other than that of
the payload.
-/

namespace Goalbase

inductive Damage where
  | truncatedHeader
  | badMagic
  | lengthMismatch
  | checksumMismatch
  deriving DecidableEq

namespace Record

/-- The letters KDB1. -/
def magic : Bytes := [0x4B, 0x44, 0x42, 0x31]

def headerLength : Nat := 16

/-- The low bytes of a number, least significant first. -/
def littleEndian : (count : Nat) → Nat → Bytes
  | 0, _ => []
  | count + 1, n => n.toUInt8 :: littleEndian count (n / 256)

def ofLittleEndian : Bytes → Nat
  | [] => 0
  | b :: rest => b.toNat + 256 * ofLittleEndian rest

def encode (payload : Bytes) : Bytes :=
  magic ++ littleEndian 4 (crc32 payload).toNat ++ littleEndian 8 payload.length ++ payload

def decode? (verify : Bool) (bytes : Bytes) : Except Damage Bytes :=
  if bytes.length < headerLength then .error .truncatedHeader
  else if bytes.take 4 ≠ magic then .error .badMagic
  else if ofLittleEndian ((bytes.drop 8).take 8) ≠ (bytes.drop headerLength).length then
    .error .lengthMismatch
  else if verify && !checksumHolds (bytes.drop headerLength)
      (ofLittleEndian ((bytes.drop 4).take 4)) then
    .error .checksumMismatch
  else .ok (bytes.drop headerLength)

/-- The bytes with some bits of one of them changed; a negative position counts from the end. -/
def flip (bytes : Bytes) (position : Int) (mask : UInt8) : Bytes :=
  bytes.modify (if position < 0 then position + bytes.length else position).toNat (· ^^^ mask)

end Record

end Goalbase

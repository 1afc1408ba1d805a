import Goalbase.Utf8

/-!
# Goalbase.Checksum

CRC-32 with the IEEE polynomial.

Mathematical meaning: bytes are taken as the coefficients of a polynomial over the field of two
elements, least significant bit first. `shift` divides the register by one more bit; a byte is added
to the low end and shifted out bit by bit. The register starts and ends inverted.
-/

namespace Goalbase

namespace Checksum

/-- The IEEE polynomial, least significant bit first. -/
def polynomial : BitVec 32 := 0xEDB88320#32

/-- One bit of division. -/
def shift (r : BitVec 32) : BitVec 32 :=
  if r.getLsbD 0 then (r >>> 1) ^^^ polynomial else r >>> 1

def shifts : Nat → BitVec 32 → BitVec 32
  | 0, r => r
  | n + 1, r => shifts n (shift r)

def push (r : BitVec 32) (b : UInt8) : BitVec 32 := shifts 8 (r ^^^ b.toBitVec.setWidth 32)

end Checksum

def crc32 (bytes : Bytes) : BitVec 32 := ~~~(bytes.foldl Checksum.push (BitVec.allOnes 32))

def checksumHolds (bytes : Bytes) (expected : Nat) : Bool := (crc32 bytes).toNat == expected

end Goalbase

/-!
# Goalbase.Identifier

Identifiers for queries and temporary files.

Mathematical meaning: a serial number is written in the layout of a random UUID, version 4: the last
three groups carry it in hexadecimal, so that distinct serial numbers below `2^48` have distinct
identifiers.
-/

namespace Goalbase

namespace Identifier

def hexDigits : (count : Nat) → Nat → List Char
  | 0, _ => []
  | count + 1, n => hexDigits count (n / 16) ++ [Nat.digitChar (n % 16)]

def ofSerial (serial : Nat) : String :=
  "00000000-0000-4000-8000-" ++ String.ofList (hexDigits 12 serial)

def isIdentifier (text : String) : Bool :=
  let hex := fun c : Char => ('0' ≤ c && c ≤ '9') || ('a' ≤ c && c ≤ 'f')
  match text.splitOn "-" with
  | [a, b, c, d, e] =>
    [a, b, c, d, e].map String.length == [8, 4, 4, 4, 12]
      && [a, b, c, d, e].all (fun s => s.toList.all hex)
      && c.toList.head? == some '4'
      && ['8', '9', 'a', 'b'].any (fun v => d.toList.head? == some v)
  | _ => false

end Identifier

end Goalbase

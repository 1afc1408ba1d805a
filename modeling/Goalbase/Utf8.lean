/-!
# Goalbase.Utf8

Text as UTF-8 bytes.

Mathematical meaning: `encode` writes each character as one to four bytes. `scan` reads bytes that
may be damaged: it gives `some c` for each well-formed sequence and `none` for each byte that
belongs to none, so an ASCII byte is never swallowed by a broken sequence before it. Overlong
forms, surrogates and values beyond the last code point are not well-formed. `decode?` accepts
exactly the byte lists in which `scan` finds nothing broken.
-/

namespace Goalbase

abbrev Bytes := List UInt8

namespace Utf8

def encodeChar (c : Char) : Bytes :=
  let n := c.toNat
  if n < 0x80 then [n.toUInt8]
  else if n < 0x800 then [(0xC0 + n / 64).toUInt8, (0x80 + n % 64).toUInt8]
  else if n < 0x10000 then
    [(0xE0 + n / 4096).toUInt8, (0x80 + n / 64 % 64).toUInt8, (0x80 + n % 64).toUInt8]
  else
    [(0xF0 + n / 262144).toUInt8, (0x80 + n / 4096 % 64).toUInt8, (0x80 + n / 64 % 64).toUInt8,
      (0x80 + n % 64).toUInt8]

def encode (cs : List Char) : Bytes := cs.flatMap encodeChar

def tail? (b : UInt8) : Option Nat :=
  let n := b.toNat
  if 0x80 ≤ n ∧ n < 0xC0 then some (n - 0x80) else none

def one? (a : UInt8) : Option Char :=
  if a.toNat < 0x80 then some (Char.ofNat a.toNat) else none

def two? (a b : UInt8) : Option Char :=
  if 0xC2 ≤ a.toNat ∧ a.toNat < 0xE0 then
    match tail? b with
    | some y => some (Char.ofNat ((a.toNat - 0xC0) * 64 + y))
    | none => none
  else none

def three? (a b c : UInt8) : Option Char :=
  if 0xE0 ≤ a.toNat ∧ a.toNat < 0xF0 then
    match tail? b, tail? c with
    | some y, some z =>
      let n := (a.toNat - 0xE0) * 4096 + y * 64 + z
      if 0x800 ≤ n ∧ ¬(0xD800 ≤ n ∧ n < 0xE000) then some (Char.ofNat n) else none
    | _, _ => none
  else none

def four? (a b c d : UInt8) : Option Char :=
  if 0xF0 ≤ a.toNat ∧ a.toNat < 0xF5 then
    match tail? b, tail? c, tail? d with
    | some x, some y, some z =>
      let n := (a.toNat - 0xF0) * 262144 + x * 4096 + y * 64 + z
      if 0x10000 ≤ n ∧ n < 0x110000 then some (Char.ofNat n) else none
    | _, _, _ => none
  else none

/-- The character that a byte list starts with and the bytes behind it. -/
def next? : Bytes → Option (Char × Bytes)
  | [] => none
  | a :: rest =>
    match one? a with
    | some ch => some (ch, rest)
    | none =>
      match rest with
      | [] => none
      | b :: rest =>
        match two? a b with
        | some ch => some (ch, rest)
        | none =>
          match rest with
          | [] => none
          | c :: rest =>
            match three? a b c with
            | some ch => some (ch, rest)
            | none =>
              match rest with
              | [] => none
              | d :: rest =>
                match four? a b c d with
                | some ch => some (ch, rest)
                | none => none

/-- Reads on with `tries` steps, collecting what was read in reverse. -/
def scanOnto (done : List (Option Char)) : (tries : Nat) → Bytes → List (Option Char)
  | 0, _ => done.reverse
  | _ + 1, [] => done.reverse
  | tries + 1, a :: rest =>
    match next? (a :: rest) with
    | some (c, rest') => scanOnto (some c :: done) tries rest'
    | none => scanOnto (none :: done) tries rest

/-- The characters of a byte list, with `none` for each byte that belongs to no character. -/
def scan (bytes : Bytes) : List (Option Char) := scanOnto [] bytes.length bytes

def allSome {α : Type} : List (Option α) → Option (List α)
  | [] => some []
  | none :: _ => none
  | some a :: rest =>
    match allSome rest with
    | some as => some (a :: as)
    | none => none

def decode? (bytes : Bytes) : Option (List Char) := allSome (scan bytes)

end Utf8

def utf8 (s : String) : Bytes := Utf8.encode s.toList

end Goalbase

import Goalbase.Json
import Goalbase.Utf8

/-!
# Goalbase.Json.Token

The tokens of JSON text.

Mathematical meaning: `Token.lex?` cuts a text into tokens, or refuses it when it is not made of
tokens and blanks. A numeral or a string can be well spelled and still denote nothing: a number too
large for a double, or a string with an unpaired surrogate escape or with bytes that are no text.
Such a token is kept with value `none`; whether that matters is left to the reader of the tokens.
`Token.spell` writes tokens without blanks.
-/

namespace Goalbase

/-- A character of a text, or `none` for a byte that belongs to no character. -/
abbrev Glyph := Option Char

/-- A token, with the value it denotes where it has one. -/
inductive Token where
  | openBracket
  | closeBracket
  | openBrace
  | closeBrace
  | comma
  | colon
  | null
  | bool (value : Bool)
  | number (value : Option Number)
  | string (value : Option String)
  deriving DecidableEq

namespace Token

/-- A piece of a quoted string: a character, a 16-bit unit written in hexadecimal, or a byte that
belongs to no character. -/
inductive Piece where
  | char (value : Char)
  | unit (value : Nat)
  | broken

def hexDigit? (c : Char) : Option Nat :=
  if '0' ≤ c ∧ c ≤ '9' then some (c.toNat - 48)
  else if 'a' ≤ c ∧ c ≤ 'f' then some (c.toNat - 87)
  else if 'A' ≤ c ∧ c ≤ 'F' then some (c.toNat - 55)
  else none

def hexUnit? : Glyph → Glyph → Glyph → Glyph → Option Nat
  | some a, some b, some c, some d =>
    match hexDigit? a, hexDigit? b, hexDigit? c, hexDigit? d with
    | some w, some x, some y, some z => some (((w * 16 + x) * 16 + y) * 16 + z)
    | _, _, _, _ => none
  | _, _, _, _ => none

def escape? : Char → Option Char
  | '"' => some '"'
  | '\\' => some '\\'
  | '/' => some '/'
  | 'b' => some '\x08'
  | 'f' => some '\x0c'
  | 'n' => some '\n'
  | 'r' => some '\r'
  | 't' => some '\t'
  | _ => none

/-- The pieces up to the closing quote, collected in reverse, and the text behind it. -/
def quoted? (done : List Piece) : List Glyph → Option (List Piece × List Glyph)
  | [] => none
  | some '"' :: rest => some (done.reverse, rest)
  | some '\\' :: some 'u' :: a :: b :: c :: d :: rest =>
    match hexUnit? a b c d with
    | some u => quoted? (.unit u :: done) rest
    | none => none
  | some '\\' :: some e :: rest =>
    match escape? e with
    | some c => quoted? (.char c :: done) rest
    | none => none
  | some '\\' :: _ => none
  | some c :: rest => if c.toNat < 0x20 then none else quoted? (.char c :: done) rest
  | none :: rest => quoted? (.broken :: done) rest

def isHigh (u : Nat) : Bool := 0xD800 ≤ u && u < 0xDC00

def isLow (u : Nat) : Bool := 0xDC00 ≤ u && u < 0xE000

/-- The text of pieces, collected in reverse: two units that form a surrogate pair are one
character, and an unpaired surrogate is none. -/
def text? (done : List Char) : List Piece → Option (List Char)
  | [] => some done.reverse
  | .char c :: rest => text? (c :: done) rest
  | .broken :: _ => none
  | .unit u :: .unit v :: rest =>
    if isHigh u then
      if isLow v then
        text? (Char.ofNat (0x10000 + (u - 0xD800) * 1024 + (v - 0xDC00)) :: done) rest
      else none
    else if isLow u then none
    else text? (Char.ofNat u :: done) (.unit v :: rest)
  | .unit u :: rest =>
    if isHigh u || isLow u then none else text? (Char.ofNat u :: done) rest

def digit? : Glyph → Option Nat
  | some c => if '0' ≤ c ∧ c ≤ '9' then some (c.toNat - 48) else none
  | none => none

/-- The leading decimal digits, collected in reverse, and the text behind them. -/
def digits (done : List Nat) : List Glyph → List Nat × List Glyph
  | [] => (done.reverse, [])
  | g :: rest =>
    match digit? g with
    | some d => digits (d :: done) rest
    | none => (done.reverse, g :: rest)

/-- Digits of which at least one is required. -/
def someDigits? (gs : List Glyph) : Option (List Nat × List Glyph) :=
  match digits [] gs with
  | ([], _) => none
  | (d :: ds, rest) => some (d :: ds, rest)

/-- The digits before the point: a leading zero stands alone. -/
def whole? : List Glyph → Option (List Nat × List Glyph)
  | some '0' :: rest => some ([0], rest)
  | gs => someDigits? gs

/-- A point and the digits behind it, if there is a point. -/
def fraction? : List Glyph → Option ((List Nat × Bool) × List Glyph)
  | some '.' :: rest =>
    match someDigits? rest with
    | some (ds, rest) => some ((ds, true), rest)
    | none => none
  | gs => some (([], false), gs)

/-- The sign and the digits of an exponent. -/
def signedDigits? : List Glyph → Option ((Bool × List Nat) × List Glyph)
  | some '+' :: rest =>
    match someDigits? rest with
    | some (ds, rest) => some ((false, ds), rest)
    | none => none
  | some '-' :: rest =>
    match someDigits? rest with
    | some (ds, rest) => some ((true, ds), rest)
    | none => none
  | gs =>
    match someDigits? gs with
    | some (ds, rest) => some ((false, ds), rest)
    | none => none

/-- An exponent, if a letter `e` of either case announces one. -/
def exponent? : List Glyph → Option (Option (Bool × List Nat) × List Glyph)
  | some 'e' :: rest =>
    match signedDigits? rest with
    | some (e, rest) => some (some e, rest)
    | none => none
  | some 'E' :: rest =>
    match signedDigits? rest with
    | some (e, rest) => some (some e, rest)
    | none => none
  | gs => some (none, gs)

def unsigned? (negative : Bool) (gs : List Glyph) : Option (Numeral × List Glyph) :=
  match whole? gs with
  | none => none
  | some (whole, gs) =>
    match fraction? gs with
    | none => none
    | some ((fraction, pointed), gs) =>
      match exponent? gs with
      | none => none
      | some (exponent, gs) => some (⟨negative, whole, fraction, pointed, exponent⟩, gs)

def numeral? : List Glyph → Option (Numeral × List Glyph)
  | some '-' :: rest => unsigned? true rest
  | gs => unsigned? false gs

/-- The token that a text starts with, `none` in the first place for a blank, and the text
behind. -/
def next? : List Glyph → Option (Option Token × List Glyph)
  | [] => none
  | some ' ' :: rest => some (none, rest)
  | some '\n' :: rest => some (none, rest)
  | some '\t' :: rest => some (none, rest)
  | some '\r' :: rest => some (none, rest)
  | some '[' :: rest => some (some .openBracket, rest)
  | some ']' :: rest => some (some .closeBracket, rest)
  | some '\x7b' :: rest => some (some .openBrace, rest)
  | some '\x7d' :: rest => some (some .closeBrace, rest)
  | some ',' :: rest => some (some .comma, rest)
  | some ':' :: rest => some (some .colon, rest)
  | some 'n' :: some 'u' :: some 'l' :: some 'l' :: rest => some (some .null, rest)
  | some 't' :: some 'r' :: some 'u' :: some 'e' :: rest => some (some (.bool true), rest)
  | some 'f' :: some 'a' :: some 'l' :: some 's' :: some 'e' :: rest =>
    some (some (.bool false), rest)
  | some '"' :: rest =>
    match quoted? [] rest with
    | some (pieces, rest) => some (some (.string ((text? [] pieces).map String.ofList)), rest)
    | none => none
  | gs =>
    match numeral? gs with
    | some (t, rest) => some (some (.number t.value?), rest)
    | none => none

/-- Reads on with `tries` tokens or blanks, collecting tokens in reverse. -/
def lexOnto (done : List Token) : (tries : Nat) → List Glyph → Option (List Token)
  | _, [] => some done.reverse
  | 0, _ :: _ => none
  | tries + 1, g :: rest =>
    match next? (g :: rest) with
    | none => none
    | some (none, rest') => lexOnto done tries rest'
    | some (some t, rest') => lexOnto (t :: done) tries rest'

/-- The tokens of a text. Every token and blank takes a glyph, so as many steps as glyphs do. -/
def lex? (gs : List Glyph) : Option (List Token) := lexOnto [] gs.length gs

def hexChar (n : Nat) : Char := Nat.digitChar (n % 16)

/-- A character inside a quoted string. Quotes, backslashes and control characters are escaped,
everything else stands for itself. -/
def quoteChar (c : Char) : List Char :=
  if c = '"' then ['\\', '"']
  else if c = '\\' then ['\\', '\\']
  else if c = '\x08' then ['\\', 'b']
  else if c = '\t' then ['\\', 't']
  else if c = '\n' then ['\\', 'n']
  else if c = '\x0c' then ['\\', 'f']
  else if c = '\r' then ['\\', 'r']
  else if c.toNat < 0x20 then ['\\', 'u', '0', '0', hexChar (c.toNat / 16), hexChar c.toNat]
  else [c]

def quote (s : String) : List Char := '"' :: (s.toList.flatMap quoteChar ++ ['"'])

/-- The text of a token; one that denotes nothing has none. -/
def chars : Token → List Char
  | .openBracket => ['[']
  | .closeBracket => [']']
  | .openBrace => ['\x7b']
  | .closeBrace => ['\x7d']
  | .comma => [',']
  | .colon => [':']
  | .null => ['n', 'u', 'l', 'l']
  | .bool true => ['t', 'r', 'u', 'e']
  | .bool false => ['f', 'a', 'l', 's', 'e']
  | .number (some n) => n.text
  | .number none => []
  | .string (some s) => quote s
  | .string none => []

def spell (tokens : List Token) : List Char := tokens.flatMap chars

end Token

end Goalbase

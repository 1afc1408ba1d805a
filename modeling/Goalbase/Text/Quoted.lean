import Goalbase.Text.Unprintable

/-!
# Goalbase.Text.Quoted

Names in messages.

Mathematical meaning: a quoted name is unambiguous on a terminal. Quotes, backslashes and the common
control characters have short escapes, and every other character without a glyph of its own is
written by its number.
-/

namespace Goalbase

def quotedChar (c : Char) : List Char :=
  if c = '"' then ['\\', '"']
  else if c = '\\' then ['\\', '\\']
  else if c = '\x00' then ['\\', '0']
  else if c = '\t' then ['\\', 't']
  else if c = '\n' then ['\\', 'n']
  else if c = '\r' then ['\\', 'r']
  else if isUnprintable c then
    '\\' :: 'u' :: '\x7b' :: (Nat.toDigits 16 c.toNat ++ ['\x7d'])
  else [c]

def quoted (name : String) : String :=
  String.ofList ('"' :: (name.toList.flatMap quotedChar ++ ['"']))

end Goalbase

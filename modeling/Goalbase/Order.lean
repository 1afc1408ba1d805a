import Goalbase.Json

/-!
# Goalbase.Order

The order of literals of one sort.

Mathematical meaning: `null` equals itself, `false` comes before `true`, numbers are compared by
`Number.compare` and strings code point by code point. Literals of different sorts, lists and objects
have no order.
-/

namespace Goalbase

def Json.compare? : Json → Json → Option Ordering
  | .null, .null => some .eq
  | .bool a, .bool b => some (Ord.compare a b)
  | .number a, .number b => some (a.compare b)
  | .string a, .string b => some (Ord.compare a b)
  | _, _ => none

def Literal.compare? (a b : Literal) : Option Ordering := a.json.compare? b.json

/-- An order as `-1`, `0` or `1`. -/
def signOf : Ordering → Int
  | .lt => -1
  | .eq => 0
  | .gt => 1

end Goalbase

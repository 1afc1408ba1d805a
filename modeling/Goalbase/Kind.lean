import Goalbase.Json

/-!
# Goalbase.Kind

Declared types of variables.

Mathematical meaning: a kind denotes the set of literals it `admits`. `any` is the top, `number` is
the union of `integer` and `float`, and all other kinds are disjoint; `meet?` is the intersection of
two kinds where it is not empty (`admits_meet?`, `admits_of_meet?_eq_none`), and it is always one of
the two.
-/

namespace Goalbase

/-- The declared type of a variable, in ascending order. -/
inductive Kind where
  | any
  | null
  | bool
  | integer
  | float
  | number
  | text
  | list
  | object
  deriving DecidableEq

namespace Kind

def all : List Kind := [any, null, bool, integer, float, number, text, list, object]

def rank : Kind → Nat
  | any => 0
  | null => 1
  | bool => 2
  | integer => 3
  | float => 4
  | number => 5
  | text => 6
  | list => 7
  | object => 8

def name : Kind → String
  | any => "any"
  | null => "null"
  | bool => "bool"
  | integer => "integer"
  | float => "float"
  | number => "number"
  | text => "text"
  | list => "list"
  | object => "object"

def ofName? (name : String) : Option Kind := all.find? (fun k => k.name == name)

def ofJson : Json → Kind
  | .null => null
  | .bool _ => bool
  | .number n => if n.isInteger then integer else float
  | .string _ => text
  | .array _ => list
  | .object _ => object

def of (a : Literal) : Kind := ofJson a.json

def isNumeric : Kind → Bool
  | integer => true
  | float => true
  | number => true
  | _ => false

def admits (declared : Kind) (a : Literal) : Bool :=
  match declared with
  | any => true
  | number => (of a).isNumeric
  | k => k == of a

/-- The narrower of two kinds, or `none` when no literal fits both. -/
def meet? (a b : Kind) : Option Kind :=
  if a = any then some b
  else if b = any then some a
  else if a = number ∧ b.isNumeric then some b
  else if b = number ∧ a.isNumeric then some a
  else if a = b then some a
  else none

/-- Whether values of the two kinds can be ordered against each other. For `any` this is only known
once there are values. -/
def comparable (a b : Kind) : Bool :=
  if a = any ∨ b = any then true
  else if a.isNumeric ∧ b.isNumeric then true
  else if a = list ∨ a = object then false
  else a = b

theorem rank_inj {k l : Kind} (h : k.rank = l.rank) : k = l := by
  cases k <;> cases l <;> first | rfl | cases h

theorem meet?_eq_left_or_right {a b k : Kind} (h : meet? a b = some k) : k = a ∨ k = b := by
  cases a <;> cases b <;> simp_all [meet?, isNumeric]

/-- A literal fits the meet of two kinds exactly when it fits both. -/
theorem admits_meet? {a b k : Kind} (h : meet? a b = some k) (x : Literal) :
    k.admits x = (a.admits x && b.admits x) := by
  simp only [meet?] at h
  split at h
  · rename_i e
    cases h
    simp [e, admits]
  · split at h
    · rename_i e
      cases h
      simp [e, admits]
    · split at h
      · rename_i e
        cases h
        obtain ⟨rfl, hb⟩ := e
        cases b <;> simp [isNumeric] at hb <;> cases hk : of x <;> simp [admits, hk, isNumeric]
      · split at h
        · rename_i e
          cases h
          obtain ⟨rfl, ha⟩ := e
          cases a <;> simp [isNumeric] at ha <;> cases hk : of x <;> simp [admits, hk, isNumeric]
        · split at h
          · rename_i e
            cases h
            simp [e]
          · cases h

/-- No literal fits two kinds without a meet. -/
theorem admits_of_meet?_eq_none {a b : Kind} (h : meet? a b = none) (x : Literal) :
    (a.admits x && b.admits x) = false := by
  cases a <;> cases b <;> simp [meet?, isNumeric] at h <;> cases hk : of x <;>
    simp [admits, isNumeric, hk]

end Kind

end Goalbase

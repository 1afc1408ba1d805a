import Goalbase.Kind
import Goalbase.Json.Text

/-!
# Goalbase.Term

Terms of the goal language: literals and typed variables.

Mathematical meaning: a variable is identified by its name and its kind together, so variables of
one name and two kinds are two variables. Variables are ordered by name, then by kind;
`compare_swap`, `compare_eq_iff` and `compare_lt_trans` say that this is a linear order.
-/

namespace Goalbase

structure Var where
  name : String
  kind : Kind
  deriving DecidableEq

namespace Var

def any (name : String) : Var := ⟨name, .any⟩

/-- By name, code point by code point, then by kind. -/
def compare (x y : Var) : Ordering :=
  match Ord.compare x.name y.name with
  | .eq => Ord.compare x.kind.rank y.kind.rank
  | o => o

def display (x : Var) : String := "?" ++ x.name ++ ":" ++ x.kind.name

theorem compare_swap (x y : Var) : x.compare y = (y.compare x).swap := by
  have hn : Ord.compare x.name y.name = (Ord.compare y.name x.name).swap :=
    Std.OrientedOrd.eq_swap
  have hk : Ord.compare x.kind.rank y.kind.rank = (Ord.compare y.kind.rank x.kind.rank).swap :=
    Std.OrientedOrd.eq_swap
  simp only [compare, hn]
  cases Ord.compare y.name x.name
  · rfl
  · exact hk
  · rfl

theorem compare_eq_iff (x y : Var) : x.compare y = .eq ↔ x = y := by
  constructor
  · intro h
    simp only [compare] at h
    split at h
    · rename_i hn
      have hn := Std.LawfulEqOrd.eq_of_compare hn
      have hk := Kind.rank_inj (Nat.compare_eq_eq.1 h)
      cases x
      cases y
      simp_all
    · rename_i o hn
      exact absurd h hn
  · rintro rfl
    simp [compare, Std.ReflOrd.compare_self]

theorem compare_lt_trans {x y z : Var} (h : x.compare y = .lt) (h' : y.compare z = .lt) :
    x.compare z = .lt := by
  simp only [compare] at *
  split at h
  · rename_i hn
    have hn := Std.LawfulEqOrd.eq_of_compare hn
    rw [hn]
    split at h'
    · rename_i hn'
      simp only [Nat.compare_eq_lt] at *
      omega
    · exact h'
  · rename_i o ho
    split at h'
    · rename_i hn'
      have hn' := Std.LawfulEqOrd.eq_of_compare hn'
      rw [← hn', h]
    · rename_i o' ho'
      rw [Std.TransCmp.lt_trans h h']

end Var

inductive Term where
  | lit (value : Literal)
  | var (name : Var)

namespace Term

def same : Term → Term → Bool
  | .lit a, .lit b => a.same b
  | .var x, .var y => x == y
  | _, _ => false

/-- The declared kind of a variable, the narrowest kind of a literal. -/
def kind : Term → Kind
  | .lit a => .of a
  | .var x => x.kind

def literal? : Term → Option Literal
  | .lit a => some a
  | .var _ => none

def var? : Term → Option Var
  | .lit _ => none
  | .var x => some x

def display : Term → String
  | .lit a => a.text
  | .var x => x.display

theorem same_refl (t : Term) : same t t = true := by
  cases t with
  | lit a => exact a.same_refl
  | var x => simp [same]

instance : Coe Var Term := ⟨.var⟩

instance : Coe Literal Term := ⟨.lit⟩

end Term

end Goalbase

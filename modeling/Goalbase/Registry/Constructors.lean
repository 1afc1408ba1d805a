import Goalbase.Registry

/-!
# Goalbase.Registry.Constructors

Constructors beyond the standard library.

Mathematical meaning: `even` and `allEqual` build constraints on one parameter and on any number of
parameters. The others show what a constructor may also do: build a tree that is no constraint, build
a constraint without a goal, or refuse its parameters.
-/

namespace Goalbase

namespace Constructor

/-- The only parameter is an even signed word. -/
def even (name : String) : Constructor := fun handle params =>
  match params with
  | [t] => .ok (.custom handle name [t] (.even t) [])
  | _ => .error (.arity name 1 params.length)

def allEqual (name : String) : Constructor := fun handle params =>
  .ok (.custom handle name params (.allEqual params) [])

/-- A conjunction in which every parameter equals itself. -/
def reflexive : Constructor := fun _ params => .ok (.and (params.map fun t => .equal t t))

def hollow (name : String) : Constructor := fun _ params => .ok (.constraint name params none)

def refuse (name : String) : Constructor := fun _ params =>
  .error (.parameter name (String.intercalate " " (params.map Term.display)))

end Constructor

end Goalbase

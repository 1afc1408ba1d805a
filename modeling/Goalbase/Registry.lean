import Goalbase.Relations

/-!
# Goalbase.Registry

Constructors of named constraints.

Mathematical meaning: a registry is a finite map from names to constructors. A later registration of
a name replaces the earlier one. A constructor gets the handle that the constraint it builds may
take as its identity.
-/

namespace Goalbase

/-- Builds the constraint of a name from stored parameters. -/
abbrev Constructor := Handle → List Term → Except BuildError Tree

abbrev Library := List (String × Constructor)

def Library.standard : Library :=
  [(Relations.notEqName, Relations.buildNotEq), (Relations.compareName, Relations.buildCompare)]

structure Registry where
  table : Table String Constructor

namespace Registry

def empty : Registry := ⟨.empty⟩

/-- Sets the constructor of a name; the flag says whether there was one. -/
def register (r : Registry) (name : String) (build : Constructor) : Registry × Bool :=
  (⟨r.table.insert name build⟩, r.table.contains name)

def registerLibrary (r : Registry) (library : Library) : Registry :=
  library.foldl (fun r e => (r.register e.1 e.2).1) r

def ofLibraries (libraries : List Library) : Registry := libraries.foldl registerLibrary empty

def standardWith (libraries : List Library) : Registry :=
  ofLibraries (Library.standard :: libraries)

def get? (r : Registry) (name : String) : Option Constructor := r.table.get? name

def contains (r : Registry) (name : String) : Bool := r.table.contains name

def size (r : Registry) : Nat := r.table.size

def isEmpty (r : Registry) : Bool := r.table.isEmpty

def names (r : Registry) : List String := r.table.keys.mergeSort (fun a b => decide (a ≤ b))

end Registry

end Goalbase

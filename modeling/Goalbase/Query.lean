import Goalbase.Engine
import Goalbase.State.Projection

/-!
# Goalbase.Query

Queries over several goal trees.

Mathematical meaning: a query holds a list of trees. Combinators act on every tree; `joinAll` forms
the cartesian product with the trees of other queries. The results of a query are the fair merge of
the results of its trees up to the first fault.
-/

namespace Goalbase

structure Query where
  trees : List Tree

namespace Query

def isEmpty (q : Query) : Bool := q.trees.isEmpty

/-- Each tree together with all the given ones. -/
def and (q : Query) (trees : List Tree) : Query := ⟨q.trees.map fun t => .and (t :: trees)⟩

/-- Each tree or one of the given ones. -/
def or (q : Query) (trees : List Tree) : Query := ⟨q.trees.map fun t => .or (t :: trees)⟩

/-- Every combination followed by every tree of a query. -/
def extend (combinations : List (List Tree)) (q : Query) : List (List Tree) :=
  combinations.flatMap fun c => q.trees.map fun t => c ++ [t]

/-- Each combination of a tree of every query, and the joining tree behind them. -/
def joinAll (q : Query) (joining : Tree) (others : List Query) : Query :=
  ⟨(others.foldl extend (q.trees.map fun t => [t])).map fun c => .and (c ++ [joining])⟩

def join (q : Query) (joining : Tree) (other : Query) : Query := q.joinAll joining [other]

/-- Runs tree after tree up to the first that cannot be converted. -/
def runAll (e : Engine) : List Tree → Reply (List Stream)
  | [] => e.answer (.ok [])
  | t :: rest =>
    (e.run t).andThen fun e stream =>
      (runAll e rest).andThen fun e streams => e.answer (.ok (stream :: streams))

def results (q : Query) (e : Engine) : Reply Results :=
  (runAll e q.trees).andThen fun e streams => e.answer (.ok (.ofStream (.merge streams)))

/-- The rows collected, all of them unless the bound on the steps of a pull was reached. -/
inductive Selection where
  | rows (rows : List Projection)
  | fault (reason : Fault)
  | unfinished

/-- Collects results, at most `limit` of them if there is a limit, each found in at most `steps`
steps and at most `tries` altogether; rows are held in reverse. -/
def collect (steps : Nat) (vars : List Var) (rows : List Projection)
    (before : List Observation) (limit : Option Nat) : (tries : Nat) → Results → Traced Selection
  | 0, _ => ⟨before, if limit = some 0 then .rows rows.reverse else .unfinished⟩
  | tries + 1, r =>
    if limit = some 0 then ⟨before, .rows rows.reverse⟩
    else
      let pulled := r.next steps
      match pulled.value with
      | .state s rest =>
        collect steps vars (s.project vars :: rows) (before ++ pulled.trace)
          (limit.map fun n => n - 1) tries rest
      | .fault reason _ => ⟨before ++ pulled.trace, .fault reason⟩
      | .ended _ => ⟨before ++ pulled.trace, .rows rows.reverse⟩
      | .unfinished _ => ⟨before ++ pulled.trace, .unfinished⟩

/-- The projections of all results, or of as many as the configuration allows. -/
def select (q : Query) (e : Engine) (steps : Nat) (vars : List Var) : Reply Selection :=
  (q.results e).andThen fun e r =>
    let collected := collect steps vars [] [] e.config.selectLimit steps r
    match collected.value with
    | .fault reason => ⟨e, [], collected.trace, .error (.fault reason)⟩
    | found => ⟨e, [], collected.trace, .ok found⟩

end Query

end Goalbase

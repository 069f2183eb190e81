import MaxSat.Oracle.Basic
import MaxSat.Search

/-!
# The exhaustive solver

An oracle that searches from scratch on every call. Its models are the least
ones, its cores are assumptions of which none can be left out. Assumed variables
do not count as in use afterwards.
-/

namespace MaxSat

/-- Keeps the literals without which the rest, the literals kept and those still to come,
is satisfiable. -/
def shrinkCore (f : Cnf) : List Lit → List Lit → List Lit
  | kept, [] => kept
  | kept, l :: rest =>
    if Search.satisfiable f (kept ++ rest) then shrinkCore f (kept ++ [l]) rest
    else shrinkCore f kept rest

structure ExhaustiveSolver where
  cnf : Cnf := {}
  /-- The model of the last call, if there was one. -/
  model : Option (Array Bool) := none
  tally : Tally := {}

namespace ExhaustiveSolver

/-- The name under which the solver is chosen. -/
def name : String := "dpll"

def freshVar (s : ExhaustiveSolver) : Nat × ExhaustiveSolver :=
  let (v, f) := s.cnf.freshVar
  (v, { s with cnf := f })

def reserve (s : ExhaustiveSolver) (n : Nat) : ExhaustiveSolver :=
  { s with cnf := { s.cnf with numVars := max s.cnf.numVars n } }

def addClause (s : ExhaustiveSolver) (c : Clause) : ExhaustiveSolver :=
  { s with cnf := s.cnf.addClause c }

def solve (s : ExhaustiveSolver) (assumptions : List Lit) : Reply × ExhaustiveSolver :=
  match Search.model? s.cnf assumptions with
  | some m => (.sat, { s with model := some m, tally := s.tally.addSat })
  | none =>
    (.unsat (some (shrinkCore s.cnf [] assumptions)),
      { s with model := none, tally := s.tally.addUnsat })

def value (s : ExhaustiveSolver) (v : Nat) : Option Bool := s.model.bind fun m => m[v]?

end ExhaustiveSolver

instance : SatOracle ExhaustiveSolver where
  name _ := ExhaustiveSolver.name
  numVars s := s.cnf.numVars
  reserve := ExhaustiveSolver.reserve
  freshVar := ExhaustiveSolver.freshVar
  addClause := ExhaustiveSolver.addClause
  solve := ExhaustiveSolver.solve
  value := ExhaustiveSolver.value
  tally s := s.tally

end MaxSat

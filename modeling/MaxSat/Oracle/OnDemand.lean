import MaxSat.Learning.Solve
import MaxSat.Oracle.Basic
import MaxSat.Search

/-!
# The on-demand solver

An oracle that knows only variables from 1 on. It ignores literals of variable
0, in clauses and in assumptions, and takes every other variable into use when
it is first mentioned, in an assumption too. Behind that filter it searches with
learning and keeps its lemmas from call to call. Nothing is promised about
which model it finds; its cores are assumptions of which none can be left out.
-/

namespace MaxSat

structure OnDemandSolver where
  cnf : Cnf := {}
  /-- Clauses that follow from the store. -/
  lemmas : List Clause := []
  /-- The model of the last call, if there was one. -/
  model : Option (Array Bool) := none
  tally : Tally := {}

namespace OnDemandSolver

/-- The name under which the solver is chosen. -/
def name : String := "varisat"

def known (ls : List Lit) : List Lit := ls.filter fun l => l.var != 0

def reserve (s : OnDemandSolver) (n : Nat) : OnDemandSolver :=
  { s with cnf := { s.cnf with numVars := max s.cnf.numVars n } }

def freshVar (s : OnDemandSolver) : Nat × OnDemandSolver :=
  let (v, f) := s.cnf.freshVar
  (v, { s with cnf := f })

/-- Repeated literals are kept once. -/
def addClause (s : OnDemandSolver) (c : Clause) : OnDemandSolver :=
  { s with cnf := s.cnf.addClause (known c).eraseDups }

/-- A model or a core for the given assumptions. Should the search with learning have no
answer, the exhaustive one has. -/
def consult (s : OnDemandSolver) (ls : List Lit) : Learning.Answer × OnDemandSolver :=
  let (answer, lemmas) := Learning.solve s.cnf s.lemmas ls
  let answer := answer.getD (((Search.model? s.cnf ls).map .model).getD (.core ls))
  (answer, { s with lemmas })

/-- Leaves each of the given literals out of a core, if the rest is unsatisfiable too. -/
def trim (s : OnDemandSolver) (core : List Lit) : List Lit → List Lit × OnDemandSolver
  | [] => (core, s)
  | l :: ls =>
    if !core.contains l then s.trim core ls
    else match s.consult (core.filter (· != l)) with
      | (.model _, s) => s.trim core ls
      | (.core smaller, s) => s.trim smaller ls

def solve (s : OnDemandSolver) (assumptions : List Lit) : Reply × OnDemandSolver :=
  let ls := known assumptions
  match (s.reserve (Clause.maxVar ls)).consult ls with
  | (.model m, s) => (.sat, { s with model := some m, tally := s.tally.addSat })
  | (.core core, s) =>
    let (core, s) := s.trim core core
    (.unsat (some core), { s with model := none, tally := s.tally.addUnsat })

def value (s : OnDemandSolver) (v : Nat) : Option Bool :=
  if v = 0 then none else s.model.bind fun m => m[v]?

end OnDemandSolver

instance : SatOracle OnDemandSolver where
  name _ := OnDemandSolver.name
  numVars s := s.cnf.numVars
  reserve := OnDemandSolver.reserve
  freshVar := OnDemandSolver.freshVar
  addClause := OnDemandSolver.addClause
  solve := OnDemandSolver.solve
  value := OnDemandSolver.value
  tally s := s.tally

end MaxSat

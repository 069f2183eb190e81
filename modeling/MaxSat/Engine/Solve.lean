import MaxSat.Engine.Run
import MaxSat.Oracle.Exhaustive
import MaxSat.Oracle.OnDemand

/-!
# Solving a formula

In partitioned mode the buckets are stages: their clauses enter one bucket
after the other, and cores carry over. In flat mode all soft clauses enter at
once. The model of the last stage is the solution, and its cost is computed
from the clauses it falsifies, not from the hitting set.
-/

namespace MaxSat

inductive Mode where
  | partitioned
  | flat
  deriving DecidableEq, Repr

def Mode.name : Mode → String
  | partitioned => "partitioned"
  | flat => "flat"

/-- The SAT oracles to choose from. -/
inductive Backend where
  | onDemand
  | exhaustive
  deriving DecidableEq, Repr

namespace Backend

def name : Backend → String
  | onDemand => OnDemandSolver.name
  | exhaustive => ExhaustiveSolver.name

def ofName? (s : String) : Option Backend :=
  if s = onDemand.name then some onDemand
  else if s = exhaustive.name then some exhaustive
  else none

end Backend

structure SolveOptions where
  mode : Mode := .partitioned
  backend : Backend := .onDemand
  minimize : Bool := false
  deriving DecidableEq, Repr

structure SolveStats where
  satCalls : Nat
  hsCalls : Nat
  cores : Nat
  stages : Nat
  relaxationVars : Nat
  deriving DecidableEq, Repr

structure Solution where
  /-- The total weight of the soft clauses that the model falsifies. -/
  cost : Weight
  /-- A literal for each variable of the formula, ascending. -/
  model : List Lit
  stats : SolveStats
  deriving DecidableEq, Repr

inductive Outcome where
  | optimum (solution : Solution)
  | infeasible
  deriving DecidableEq, Repr

/-- The cost under the weights as they were declared. -/
def Solution.declaredCost (s : Solution) (f : Formula) : Weight := s.cost + f.offset

/-- The valuation that makes the model's literals true and other variables false. -/
def Solution.valuation (s : Solution) : Valuation :=
  MaxSat.valuation (false :: s.model.map Lit.positive).toArray

/-- The batches of soft clauses in the order in which they enter. Without soft clauses there
is still one stage, for a model of the hard clauses. -/
def Formula.batches (f : Formula) : Mode → List (List SoftClause)
  | .partitioned => if f.soft.isEmpty then [[]] else f.buckets.map Bucket.clauses
  | .flat => [f.soft]

/-- With hitting sets that hit all recorded cores no core comes twice, so there are fewer
rounds than sets of soft clauses. -/
def Formula.roundBound (f : Formula) : Nat := Nat.pow 2 f.soft.length

namespace Run

variable {σ τ : Type} [SatOracle σ] [HittingOracle τ]

/-- Values of variables 1 up to `n` in the last model, with those that have none false. -/
def modelUpTo (r : Run σ τ) (n : Nat) : List Lit :=
  (List.range' 1 n).map fun v => ⟨v, (SatOracle.value r.sat v).getD false⟩

def finish (f : Formula) (numStages : Nat) (r : Run σ τ) : Solution :=
  let model := r.modelUpTo f.numVars
  let ν := valuation (false :: model.map Lit.positive).toArray
  let falsified := r.relaxed.filter fun x => !Clause.holds ν x.soft.clause
  { cost := Weight.total (falsified.map fun x => x.soft.weight)
    model
    stats := {
      satCalls := (SatOracle.tally r.sat).calls
      hsCalls := r.hsCalls
      cores := r.cores
      stages := numStages
      relaxationVars := r.relaxed.length } }

/-- A whole run on the given oracles: its result and its last state, which has the log. A
variable for each soft clause must fit below the largest id; that is checked before any
hitting set or model is asked for. -/
def solve (f : Formula) (mode : Mode) (o : RunOptions) (sat : σ) (hitter : τ) :
    Except SolveError Outcome × Run σ τ :=
  let r := seed f sat hitter
  let last := SatOracle.numVars r.sat + f.soft.length
  if maxVar < last then (.error (.tooManyVariables last), r)
  else
    let batches := f.batches mode
    match r.stages o batches with
    | (.failed e, r) => (.error e, r)
    | (.infeasible, r) => (.ok .infeasible, r)
    | (.settled, r) => (.ok (.optimum (r.finish f batches.length)), r)

end Run

/-- Solves a formula with the chosen SAT oracle and exact hitting sets. -/
def Formula.solve (f : Formula) (o : SolveOptions) : Except SolveError Outcome :=
  let run : RunOptions := { minimize := o.minimize, rounds := f.roundBound }
  match o.backend with
  | .onDemand => (Run.solve f o.mode run ({} : OnDemandSolver) ({} : Hitter)).1
  | .exhaustive => (Run.solve f o.mode run ({} : ExhaustiveSolver) ({} : Hitter)).1

end MaxSat

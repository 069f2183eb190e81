import MaxSat.Bench.Dataset
import MaxSat.Command.Arguments
import MaxSat.Formula.Writer

/-!
# The commands

`solve` prints an optimum with its model, `convert` writes an instance without
partitions, `stats` prints the sizes of an instance. The benchmark program runs
all of a directory. A refused command line ends with status 2, a failure with
status 1 and its report.
-/

namespace MaxSat

/-- How a program ends. -/
structure Exit where
  status : Nat
  /-- What is written to the error stream. -/
  report : String := ""
  deriving DecidableEq, Repr

namespace Exit

def success : Exit := ⟨0, ""⟩

def refused : Exit := ⟨2, ""⟩

def failure (text : String) : Exit := ⟨1, "Error: " ++ text ++ "\n"⟩

/-- A failure with what led to it. -/
def failureBy (text cause : String) : Exit :=
  failure (text ++ "\n\nCaused by:\n    " ++ cause)

end Exit

/-- What the solver program is asked to do. -/
inductive Command where
  | solve (path : String) (wcnf flat : Bool) (backend : String) (minimize : Bool)
      (commentLeads : List String)
  | convert (path target : String)
  | stats (path : String) (wcnf : Bool)
  deriving DecidableEq, Repr

/-- What the benchmark program is asked to do. -/
structure BenchCommand where
  dir : String
  csv : String
  backend : String
  timeLimit : Nat
  minimize : Bool
  progress : Bool
  deriving DecidableEq, Repr

namespace Command

def verboseShort : List (Char × String) := [('v', "verbose")]

def solveSpec : ArgumentSpec where
  flags := ["verbose", "wcnf", "no-up", "minimize-cores"]
  shorts := verboseShort
  options := ["backend"]
  lists := ["comment-lead"]

def convertSpec : ArgumentSpec where
  flags := ["verbose"]
  shorts := verboseShort
  options := ["emit"]

def statsSpec : ArgumentSpec where
  flags := ["verbose", "wcnf"]
  shorts := verboseShort

/-- The backend that is used if none is named. -/
def defaultBackend : String := Backend.onDemand.name

def readSolve (args : List String) : Option Command := do
  let a ← Arguments.parse? solveSpec args
  let [path] := a.positionals | none
  let leads := match a.valuesOf "comment-lead" with
    | [] => ["c"]
    | given => given
  return .solve path (a.has "wcnf") (a.has "no-up") ((a.value? "backend").getD defaultBackend)
    (a.has "minimize-cores") leads

def readConvert (args : List String) : Option Command := do
  let a ← Arguments.parse? convertSpec args
  let [path] := a.positionals | none
  return .convert path (← a.value? "emit")

def readStats (args : List String) : Option Command := do
  let a ← Arguments.parse? statsSpec args
  let [path] := a.positionals | none
  return .stats path (a.has "wcnf")

/-- A flag before the command may be given once, as inside it. -/
def readFrom (verbose : Bool) : List String → Option Command
  | [] => none
  | "solve" :: args => readSolve args
  | "convert" :: args => readConvert args
  | "stats" :: args => readStats args
  | arg :: args =>
    if (arg = "-v" || arg = "--verbose") && !verbose then readFrom true args else none

def ofArgs? (args : List String) : Option Command := readFrom false args

end Command

namespace BenchCommand

def spec : ArgumentSpec where
  flags := ["minimize-cores", "progress"]
  options := ["dir", "csv", "backend", "timeout_ms"]

/-- The largest time limit. -/
def maxLimit : Nat := 18446744073709551615

def ofArgs? (args : List String) : Option BenchCommand := do
  let a ← Arguments.parse? spec args
  let [] := a.positionals | none
  let limit ← match a.value? "timeout_ms" with
    | none => some 30000
    | some t => Text.count? maxLimit t.toList
  return {
    dir := ← a.value? "dir"
    csv := ← a.value? "csv"
    backend := (a.value? "backend").getD Command.defaultBackend
    timeLimit := limit
    minimize := a.has "minimize-cores"
    progress := a.has "progress" }

end BenchCommand

def unknownBackend (name : String) : Exit :=
  Exit.failure ("unknown backend '" ++ name ++ "', expected " ++ Backend.onDemand.name ++ "|" ++
    Backend.exhaustive.name)

def showNat (n : Nat) : String := String.ofList (Text.ofNatural n)

/-- What `solve` prints. -/
def Outcome.report : Outcome → String
  | .infeasible => "UNSAT\n"
  | .optimum s =>
    "s OPTIMUM FOUND\no " ++ s.cost.text ++ "\n\nv " ++
      String.intercalate " " (s.model.map Lit.text) ++ "\n"

/-- What `convert` prints. -/
def Formula.summary (f : Formula) : String :=
  "vars=" ++ showNat f.numVars ++ " hard=" ++ showNat f.hard.length ++
    " soft=" ++ showNat f.soft.length ++ " top=" ++ f.topWeight.text ++ "\n"

/-- What `stats` prints. -/
def Formula.statistics (f : Formula) : String :=
  let sizes := f.buckets.map fun b => showNat b.partition ++ ":" ++ showNat b.clauses.length
  "vars=" ++ showNat f.numVars ++ " input_vars=" ++ showNat f.inputVars ++
    " hard=" ++ showNat f.hard.length ++ " soft=" ++ showNat f.soft.length ++
    " top=" ++ f.topWeight.text ++ " offset=" ++ f.offset.text ++ "\n" ++
    "partitions=" ++ showNat f.numPartitions ++
    " sizes=" ++ String.intercalate "," sizes ++ "\n"

def LoadError.exit (path : String) : LoadError → Exit
  | .unopened reason => Exit.failureBy ("failed to open " ++ path) reason
  | .unparsed e => Exit.failureBy ("failed to parse " ++ path) e.message

variable {m : Type → Type} [Monad m] [Host m]

/-- Loads an instance and goes on with it; the dialect goes by the flag, then by the name. -/
def withFormula (path : String) (wcnf : Bool) (leads : List String) (next : Formula → m Exit) :
    m Exit := do
  let dialect := if wcnf then .wcnf else Dialect.ofPath path
  match ← Formula.load { dialect, commentLeads := leads } path with
  | .error e => return e.exit path
  | .ok f => next f

namespace Command

def runSolve (path : String) (wcnf flat : Bool) (backend : String) (minimize : Bool)
    (leads : List String) : m Exit :=
  withFormula path wcnf leads fun f => do
    match Backend.ofName? backend with
    | none => return unknownBackend backend
    | some b =>
      let flat := flat || wcnf || Dialect.ofPath path == .wcnf
      let mode := if flat then Mode.flat else Mode.partitioned
      match f.solve { mode, backend := b, minimize } with
      | .error e => return Exit.failureBy "solver failed" e.message
      | .ok outcome =>
        Host.print outcome.report
        return Exit.success

def runConvert (path target : String) : m Exit :=
  withFormula path false ["c"] fun f => do
    match ← Host.writeFile target f.toWcnf with
    | .error e => return Exit.failureBy ("failed to write " ++ target) e
    | .ok () =>
      Host.print f.summary
      return Exit.success

def runStats (path : String) (wcnf : Bool) : m Exit :=
  withFormula path wcnf ["c"] fun f => do
    Host.print f.statistics
    return Exit.success

def run : Command → m Exit
  | .solve path wcnf flat backend minimize leads =>
    runSolve path wcnf flat backend minimize leads
  | .convert path target => runConvert path target
  | .stats path wcnf => runStats path wcnf

end Command

namespace BenchCommand

def run (c : BenchCommand) : m Exit := do
  match Backend.ofName? c.backend with
  | none => return unknownBackend c.backend
  | some backend =>
    let cfg : BenchConfig := { backend, minimize := c.minimize, timeLimit := c.timeLimit }
    match ← Bench.runDataset cfg c.dir c.csv c.progress with
    | .error e => return Exit.failure e
    | .ok rows =>
      Host.print ("rows=" ++ showNat rows.length ++ "\n")
      return Exit.success

end BenchCommand

/-- The solver program. -/
def solverProgram (args : List String) : m Exit :=
  match Command.ofArgs? args with
  | none => return Exit.refused
  | some c => c.run

/-- The benchmark program. -/
def benchProgram (args : List String) : m Exit :=
  match BenchCommand.ofArgs? args with
  | none => return Exit.refused
  | some c => c.run

end MaxSat

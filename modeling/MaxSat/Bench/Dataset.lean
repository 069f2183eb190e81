import MaxSat.Bench.Row
import MaxSat.Engine.Solve
import MaxSat.Files.Host

/-!
# Benchmarks over a directory

Every instance below a directory is solved in partitioned and then in flat
mode. An instance that cannot be read, one without solutions and one that takes
too long are rows of the table, not failures. The table is written anew after
each row, so it is up to date while the benchmark runs.
-/

namespace MaxSat

structure BenchConfig where
  backend : Backend
  minimize : Bool := false
  /-- Milliseconds for one instance in one mode. -/
  timeLimit : Nat := 30000

/-- Why an instance file is no formula. -/
inductive LoadError where
  | unopened (reason : String)
  | unparsed (error : ReadError)

variable {m : Type → Type} [Monad m] [Host m]

def Formula.load (o : ReadOptions) (path : String) : m (Except LoadError Formula) := do
  match ← Host.readLines path with
  | .error reason => return .error (.unopened reason)
  | .ok lines => return (Formula.ofLines o lines).mapError .unparsed

namespace Bench

/-- A row that says which run it is about. -/
def emptyRow (cfg : BenchConfig) (path : String) (mode : Mode) (status : String) : BenchRow :=
  { path, status, backend := cfg.backend.name, mode := mode.name }

/-- The sizes of the instance and what solving it gave. -/
def solvedRow (cfg : BenchConfig) (path : String) (mode : Mode) (f : Formula) : BenchRow :=
  let row (status : String) : BenchRow :=
    { emptyRow cfg path mode status with
      vars := some f.numVars
      hard := some f.hard.length
      soft := some f.soft.length
      partitions := some f.numPartitions }
  match f.solve { mode, backend := cfg.backend, minimize := cfg.minimize } with
  | .ok (.optimum s) =>
    { row "ok" with
      satCalls := some s.stats.satCalls
      cores := some s.stats.cores
      cost := some s.cost.text }
  | .ok .infeasible => row "unsat"
  | .error _ => row "internal_error"

def attempt (cfg : BenchConfig) (path : String) (mode : Mode) : m BenchRow := do
  match ← Formula.load { dialect := Dialect.ofPath path } path with
  | .error _ => return emptyRow cfg path mode "parse_error"
  | .ok f => return solvedRow cfg path mode f

/-- One instance in one mode, within the time limit. -/
def runOne (cfg : BenchConfig) (path : String) (mode : Mode) : m BenchRow := do
  let (row, elapsed) ← Host.timed cfg.timeLimit (attempt cfg path mode)
  let row := row.getD (emptyRow cfg path mode "timeout")
  return { row with wallMs := some elapsed }

def isInstance (path : String) : Bool :=
  Path.extension? path == some "pwcnf" || Path.extension? path == some "wcnf"

/-- The instances below a directory; `depth` bounds how far down they are looked for. -/
def collect : Nat → String → m (Except String (List String))
  | 0, _ => return .error FileError.nameTooLong.message
  | depth + 1, dir => do
    match ← Host.listDir dir with
    | .error e => return .error e
    | .ok entries =>
      entries.foldlM (fun found entry => do
        match found with
        | .error e => return .error e
        | .ok paths =>
          let path := Path.join dir entry.name
          if entry.isDir then
            return (← collect depth path).map (paths ++ ·)
          else if isInstance path then return .ok (paths ++ [path])
          else return .ok paths) (.ok [])

/-- Deeper than a path name can be long. -/
def maxDepth : Nat := 4096

/-- All instances below a directory in the order of paths. -/
def discover (dir : String) : m (Except String (List String)) := do
  return (← collect maxDepth dir).map fun paths => paths.mergeSort Path.le

/-- The line that reports a row while the benchmark runs. -/
def progressLine (r : BenchRow) : String :=
  "path=" ++ r.path ++ " mode=" ++ r.mode ++ " status=" ++ r.status ++ " wall_ms=" ++
    String.ofList (Text.ofNatural (r.wallMs.getD 0)) ++ " cost=" ++ r.cost.getD "" ++ "\n"

/-- Runs the rest of a benchmark after the given rows. -/
def runFrom (cfg : BenchConfig) (csv : String) (progress : Bool) :
    List (String × Mode) → List BenchRow → m (Except String (List BenchRow))
  | [], rows => return .ok rows
  | (path, mode) :: rest, rows => do
    let row ← runOne cfg path mode
    if progress then Host.print (progressLine row)
    let rows := rows ++ [row]
    match ← Host.writeFile csv (BenchRow.table rows) with
    | .error e => return .error e
    | .ok () => runFrom cfg csv progress rest rows

/-- Runs a whole benchmark. The instances are looked up before the table's file is made. -/
def runDataset (cfg : BenchConfig) (dir csv : String) (progress : Bool) :
    m (Except String (List BenchRow)) := do
  match ← discover dir with
  | .error e => return .error e
  | .ok paths =>
    match ← Host.writeFile csv (BenchRow.table []) with
    | .error e => return .error e
    | .ok () =>
      let jobs := paths.flatMap fun p => [(p, Mode.partitioned), (p, Mode.flat)]
      runFrom cfg csv progress jobs []

end Bench

end MaxSat

import MaxSat.Formula.Basic
import MaxSat.Oracle.Basic

/-!
# The implicit hitting set loop

Each soft clause is relaxed by a fresh variable; assuming that variable asks
for the clause. A round takes a hitting set of the cores found so far, drops
its clauses and asks whether the others can be satisfied together. If not, the
answer's core is recorded and the next round begins. If they can, the hitting
set was a lower bound that is met.

A run keeps a log of every oracle call. It goes on over rounds up to a bound;
`roundBound` in the module on solving is large enough for every oracle whose
hitting sets hit the recorded cores.
-/

namespace MaxSat

/-- One call of an oracle. -/
inductive Event where
  | reserve (n after : Nat)
  | newVar (var : Nat)
  | add (clause : Clause)
  | solve (assumptions : List Lit) (reply : Reply)
  | get (set : List Nat) (numCores : Nat)
  | hit (core : Core)
  deriving DecidableEq

/-- A soft clause with the variable that relaxes it. -/
structure Relaxation where
  var : Nat
  soft : SoftClause
  deriving DecidableEq

structure Run (σ τ : Type) where
  sat : σ
  hitter : τ
  /-- In the order in which the clauses were relaxed. -/
  relaxed : List Relaxation := []
  hsCalls : Nat := 0
  cores : Nat := 0
  /-- Oracle calls so far, the latest first. -/
  log : List Event := []

/-- How the engine is to work on a stage. -/
structure RunOptions where
  /-- Whether to shrink cores before they are recorded. -/
  minimize : Bool := false
  /-- The number of rounds a stage may take. -/
  rounds : Nat

/-- How a stage or a run of stages ends. -/
inductive Ending where
  | settled
  | infeasible
  | failed (error : SolveError)
  deriving DecidableEq

/-- What a round leads to: the end of the stage, or another round. -/
inductive Step where
  | ended (ending : Ending)
  | again
  deriving DecidableEq

namespace Run

variable {σ τ : Type} [SatOracle σ] [HittingOracle τ]

def reserve (r : Run σ τ) (n : Nat) : Run σ τ :=
  let sat := SatOracle.reserve r.sat n
  { r with sat, log := .reserve n (SatOracle.numVars sat) :: r.log }

def addClause (r : Run σ τ) (c : Clause) : Run σ τ :=
  { r with sat := SatOracle.addClause r.sat c, log := .add c :: r.log }

def freshVar (r : Run σ τ) : Nat × Run σ τ :=
  let (v, sat) := SatOracle.freshVar r.sat
  (v, { r with sat, log := .newVar v :: r.log })

def ask (r : Run σ τ) (assumptions : List Lit) : Reply × Run σ τ :=
  let (reply, sat) := SatOracle.solve r.sat assumptions
  (reply, { r with sat, log := .solve assumptions reply :: r.log })

def getSet (r : Run σ τ) : List Nat × Run σ τ :=
  let (set, hitter) := HittingOracle.get r.hitter
  (set, { r with
    hitter
    hsCalls := r.hsCalls + 1
    log := .get set (HittingOracle.numCores hitter) :: r.log })

def record (r : Run σ τ) (core : Core) : Run σ τ :=
  { r with
    hitter := HittingOracle.hit r.hitter core
    cores := r.cores + 1
    log := .hit core :: r.log }

/-- Hands the hard clauses to the SAT oracle. -/
def seed (f : Formula) (sat : σ) (hitter : τ) : Run σ τ :=
  f.hard.foldl (fun r h => r.addClause h.clause) (reserve { sat, hitter } f.numVars)

/-- Adds a soft clause that holds only while its fresh variable is assumed. -/
def relax (r : Run σ τ) (s : SoftClause) : Run σ τ :=
  let (v, r) := r.freshVar
  let r := r.addClause (s.clause ++ [Lit.neg v])
  { r with relaxed := r.relaxed ++ [⟨v, s⟩] }

/-- The clause that a variable relaxes. -/
def relaxation? (r : Run σ τ) (v : Nat) : Option Relaxation :=
  r.relaxed.find? fun x => x.var == v

/-- The relaxations that the hitting set leaves to be satisfied. -/
def kept (r : Run σ τ) (set : List Nat) : List Relaxation :=
  r.relaxed.filter fun x => !set.contains x.var

def assumptions (r : Run σ τ) (set : List Nat) : List Lit :=
  (r.kept set).map fun x => Lit.pos x.var

/-- The weighted variables of a core, each of which has to be assumed. -/
def coreMembers (kept : List Relaxation) : List Lit → Except SolveError (List (Nat × Weight))
  | [] => .ok []
  | l :: ls =>
    match kept.find? fun x => Lit.pos x.var == l with
    | none => .error (.notAssumed l)
    | some x => (coreMembers kept ls).map fun ms => (x.var, x.soft.weight) :: ms

/-- Shrinks a core of more than one literal, if that is asked for. -/
def shrink (o : RunOptions) (core : List Lit) (r : Run σ τ) :
    Except SolveError (List Lit) × Run σ τ :=
  if o.minimize && 1 < core.length then
    minimizeFrom ask (o.rounds + core.length + 1) core 0 r
  else (.ok core, r)

/-- Records the core of an unsatisfiable answer. An empty one means that no assumption is
to blame. -/
def learn (o : RunOptions) (kept : List Relaxation) (core : List Lit) (r : Run σ τ) :
    Step × Run σ τ :=
  match r.shrink o core with
  | (.error e, r) => (.ended (.failed e), r)
  | (.ok [], r) => (.ended .infeasible, r)
  | (.ok core, r) =>
    match coreMembers kept core with
    | .error e => (.ended (.failed e), r)
    | .ok members => (.again, r.record (Core.ofMembers members))

/-- One hitting set and one call on the clauses outside of it. -/
def round (o : RunOptions) (r : Run σ τ) : Step × Run σ τ :=
  let (set, r) := r.getSet
  match set.find? fun v => (r.relaxation? v).isNone with
  | some v => (.ended (.failed (.unknownVariable v)), r)
  | none =>
    match r.ask (r.assumptions set) with
    | (.failed reason, r) => (.ended (.failed (.oracle reason)), r)
    | (.sat, r) => (.ended .settled, r)
    | (.unsat none, r) => (.ended (.failed .missingCore), r)
    | (.unsat (some core), r) => r.learn o (r.kept set) core

/-- Rounds until one ends the stage. -/
def converge (o : RunOptions) : Nat → Run σ τ → Ending × Run σ τ
  | 0, r => (.failed .outOfRounds, r)
  | n + 1, r =>
    match r.round o with
    | (.ended ending, r) => (ending, r)
    | (.again, r) => converge o n r

/-- Relaxes a batch of soft clauses and converges. -/
def stage (o : RunOptions) (r : Run σ τ) (batch : List SoftClause) : Ending × Run σ τ :=
  converge o o.rounds (batch.foldl relax r)

/-- Stage after stage, as long as they settle. -/
def stages (o : RunOptions) : List (List SoftClause) → Run σ τ → Ending × Run σ τ
  | [], r => (.settled, r)
  | batch :: rest, r =>
    match r.stage o batch with
    | (.settled, r) => stages o rest r
    | (ending, r) => (ending, r)

end Run

end MaxSat

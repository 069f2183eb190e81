import MaxSat.Engine.Solve

/-!
# Scripted oracles and logged runs

Scripts play back prepared answers, right or wrong, to drive the engine into a
given course of events. Past its end a SAT script fails and a hitting-set script
names variable 0, which relaxes no clause, so a run on a script cannot go on
forever. A logged run, on scripts or on the exhaustive solver and exact hitting
sets, is kept for its log.
-/

namespace MaxSat

/-- One prepared answer. -/
inductive ScriptReply where
  /-- Satisfiable; a variable has the sign of the first literal that mentions it. -/
  | sat (model : List Lit)
  | unsat (core : Option (List Lit))
  | failed (reason : String)
  deriving DecidableEq, Repr

structure SatScript where
  numVars : Nat
  /-- Answers still to be given. -/
  replies : List ScriptReply
  model : Option (List Lit) := none
  calls : Nat := 0

namespace SatScript

/-- Gives the next answer, whatever is assumed. -/
def solve (s : SatScript) (_ : List Lit) : Reply × SatScript :=
  let next := { s with calls := s.calls + 1, model := none, replies := s.replies.tail }
  match s.replies.head? with
  | none => (.failed "script exhausted", next)
  | some (.sat model) => (.sat, { next with model := some model })
  | some (.unsat core) => (.unsat core, next)
  | some (.failed reason) => (.failed reason, next)

def value (s : SatScript) (v : Nat) : Option Bool :=
  s.model.bind fun ls => (ls.find? fun l => l.var == v).map Lit.positive

end SatScript

instance : SatOracle SatScript where
  name _ := "scripted"
  numVars s := s.numVars
  reserve s n := { s with numVars := max s.numVars n }
  freshVar s := (s.numVars + 1, { s with numVars := s.numVars + 1 })
  addClause s _ := s
  solve := SatScript.solve
  value := SatScript.value
  tally s := { calls := s.calls }

structure HittingScript where
  /-- Sets still to be given. -/
  sets : List (List Nat)
  cores : Nat := 0

instance : HittingOracle HittingScript where
  hit s _ := { s with cores := s.cores + 1 }
  get s := (s.sets.head?.getD [0], { s with sets := s.sets.tail })
  numCores s := s.cores

/-- Oracle answers to use in place of computed ones. -/
structure Playback where
  sat : Option SatScript := none
  hitting : Option HittingScript := none

/-- What a logged run shows. -/
structure LoggedRun where
  oracleName : String
  /-- Oracle calls in order. -/
  events : List Event
  result : Except SolveError Outcome

namespace Playback

/-- A run on scripts ends with them at the latest. -/
def roundBound (p : Playback) (f : Formula) : Nat :=
  f.roundBound + (p.sat.map fun s => s.replies.length).getD 0 +
    (p.hitting.map fun s => s.sets.length).getD 0 + 1

def runWith {σ τ : Type} [SatOracle σ] [HittingOracle τ] (p : Playback) (f : Formula)
    (mode : Mode) (minimize : Bool) (sat : σ) (hitter : τ) : LoggedRun :=
  let (result, last) := Run.solve f mode { minimize, rounds := p.roundBound f } sat hitter
  { oracleName := SatOracle.name last.sat, events := last.log.reverse, result }

def run (p : Playback) (f : Formula) (mode : Mode) (minimize : Bool) : LoggedRun :=
  match p.sat, p.hitting with
  | none, none => p.runWith f mode minimize ({} : ExhaustiveSolver) ({} : Hitter)
  | none, some h => p.runWith f mode minimize ({} : ExhaustiveSolver) h
  | some s, none => p.runWith f mode minimize s ({} : Hitter)
  | some s, some h => p.runWith f mode minimize s h

end Playback

end MaxSat

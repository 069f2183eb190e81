import MaxSat.HittingSet.Hitter
import MaxSat.Literal

/-!
# Oracles

A SAT oracle holds clauses, which are only ever added, and answers whether they
are satisfiable under assumed literals. A hitting-set oracle records cores and is
asked for a set of variables that hits them all. Nothing here says that the answers
are right: the engine checks what it relies on, and laws of a particular oracle are
stated of that oracle. A solve fails if a SAT oracle fails, if an answer is one that
its oracle cannot rightly give, or if the variable ids run out.

A core is minimized by deletion. Each literal is left out in turn; if the rest is
still unsatisfiable it stays out, together with all literals that the answer's own
core does not need. For an oracle that answers truthfully and a list without
repetitions every call either advances or shortens the list, so one call per literal
and a last one suffice. The bound matters only for other oracles.
-/

namespace MaxSat

/-- Failures of a solve. That no solution exists is not one of them. -/
inductive SolveError where
  | oracle (reason : String)
  /-- A hitting set names a variable that relaxes no clause. -/
  | unknownVariable (var : Nat)
  /-- An unsatisfiable answer has no core. -/
  | missingCore
  /-- A core has a literal that was not assumed. -/
  | notAssumed (lit : Lit)
  /-- Relaxation would need ids up to the given one. -/
  | tooManyVariables (last : Nat)
  /-- The bound on the number of rounds is used up. -/
  | outOfRounds
  deriving DecidableEq, Repr

namespace SolveError

def contract (what : String) : String := "oracle contract violated: " ++ what

def message : SolveError → String
  | oracle reason => "sat oracle failed: " ++ reason
  | unknownVariable v =>
    contract ("hitting set names unknown variable " ++ String.ofList (Text.ofNatural v))
  | missingCore => contract "unsatisfiable answer without a core"
  | notAssumed l => contract ("core literal " ++ l.text ++ " was not assumed")
  | tooManyVariables last =>
    "relaxation needs variable ids up to " ++ String.ofList (Text.ofNatural last)
  | outOfRounds => "no answer within the allowed number of rounds"

end SolveError

/-- The answer to one call. A core is a list of assumed literals that are to blame; it is
empty if the clauses alone are unsatisfiable. -/
inductive Reply where
  | sat
  | unsat (core : Option (List Lit))
  | failed (reason : String)
  deriving DecidableEq, Repr

/-- The core that an answer comes with. -/
def Reply.core? : Reply → Option (List Lit)
  | unsat core => core
  | _ => none

/-- Calls made so far and how they were answered. -/
structure Tally where
  calls : Nat := 0
  satAnswers : Nat := 0
  unsatAnswers : Nat := 0
  deriving DecidableEq, Repr

namespace Tally

def addSat (t : Tally) : Tally :=
  { t with calls := t.calls + 1, satAnswers := t.satAnswers + 1 }

def addUnsat (t : Tally) : Tally :=
  { t with calls := t.calls + 1, unsatAnswers := t.unsatAnswers + 1 }

end Tally

class SatOracle (σ : Type) where
  name : σ → String
  numVars : σ → Nat
  /-- Takes variables into use until there are at least as many as asked for. -/
  reserve : σ → Nat → σ
  /-- Takes the next variable into use. -/
  freshVar : σ → Nat × σ
  addClause : σ → Clause → σ
  solve : σ → List Lit → Reply × σ
  /-- The value of a variable in the model of the last call, if that was satisfiable. -/
  value : σ → Nat → Option Bool
  tally : σ → Tally

/-- Goes on at position `i` of the literals still kept. Ends with one more call on the
literals that are left. -/
def minimizeFrom {α : Type} (ask : α → List Lit → Reply × α) :
    Nat → List Lit → Nat → α → Except SolveError (List Lit) × α
  | 0, _, _, s => (.error .outOfRounds, s)
  | fuel + 1, kept, i, s =>
    if kept.length ≤ i then
      match ask s kept with
      | (.failed reason, s) => (.error (.oracle reason), s)
      | (_, s) => (.ok kept, s)
    else
      let trial := kept.eraseIdx i
      match ask s trial with
      | (.failed reason, s) => (.error (.oracle reason), s)
      | (.sat, s) => minimizeFrom ask fuel kept (i + 1) s
      | (.unsat core, s) =>
        minimizeFrom ask fuel (kept.filter (core.getD trial).contains) i s

/-- Shrinks a core to one of which no literal can be left out. -/
def minimizeCore {σ : Type} [SatOracle σ] (s : σ) (core : List Lit) :
    Except SolveError (List Lit) × σ :=
  minimizeFrom SatOracle.solve (core.length + 1) core 0 s

class HittingOracle (τ : Type) where
  hit : τ → Core → τ
  get : τ → List Nat × τ
  numCores : τ → Nat

instance : HittingOracle Hitter where
  hit := Hitter.hit
  get := Hitter.ask
  numCores h := h.cores.length

end MaxSat

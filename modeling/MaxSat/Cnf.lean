import MaxSat.Literal

/-!
# Clause stores and partial assignments

A store holds clauses and the number of variables in use. A partial assignment
gives a variable `true`, `false` or nothing; under it a literal, a clause and a
whole store are true, false or undecided. Undecided is an honest answer only:
no search happens here.
-/

namespace MaxSat

structure Cnf where
  numVars : Nat := 0
  clauses : List Clause := []
  deriving DecidableEq, Repr

/-- Indexed by variable; variables past the end have no value. -/
abbrev Assignment := Array (Option Bool)

namespace Assignment

def value (a : Assignment) (v : Nat) : Option Bool := a.getD v none

/-- Gives `v` a value. Variables past the end keep having none. -/
def assign (a : Assignment) (v : Nat) (b : Bool) : Assignment := a.setIfInBounds v (some b)

/-- The number of variables within the width that have no value. -/
def unassigned (a : Assignment) : Nat := a.toList.countP Option.isNone

/-- A model of the same width; a variable without a value becomes false. -/
def complete (a : Assignment) : Array Bool := a.map fun v => v.getD false

end Assignment

/-- The truth of a literal under a partial assignment. -/
def Lit.status (a : Assignment) (l : Lit) : Option Bool :=
  (a.value l.var).map fun b => b == l.positive

/-- True as soon as one literal is, false once all are. -/
def Clause.status (a : Assignment) (c : Clause) : Option Bool :=
  if c.any fun l => l.status a == some true then some true
  else if c.any fun l => (l.status a).isNone then none
  else some false

namespace Cnf

def ofVars (n : Nat) : Cnf := { numVars := n }

/-- Adds a clause; its variables count as in use from then on. -/
def addClause (f : Cnf) (c : Clause) : Cnf :=
  { numVars := max f.numVars (Clause.maxVar c), clauses := f.clauses ++ [c] }

/-- Takes the next variable id into use. The last id is handed out again once reached. -/
def freshVar (f : Cnf) : Nat × Cnf :=
  let v := min (f.numVars + 1) lastId
  (v, { f with numVars := v })

/-- False as soon as one clause is, true once all are. -/
def status (a : Assignment) (f : Cnf) : Option Bool :=
  if f.clauses.any fun c => Clause.status a c == some false then some false
  else if f.clauses.all fun c => Clause.status a c == some true then some true
  else none

/-- A valuation under which every clause is true. -/
def holds (ν : Valuation) (f : Cnf) : Bool := f.clauses.all (Clause.holds ν)

end Cnf

end MaxSat

import MaxSat.Formula.Fault
import MaxSat.Formula.Normalize

/-!
# Problems as declared

A problem is what a file or a program declares: clauses with any weights, in
any order of partitions. A clause of positive weight is hard at or above the top
and soft below it. Every other clause waits for normalization, also under a top
that is not positive and that its weight reaches. The variables of every declared
clause count as in use, also of those that normalization drops.
-/

namespace MaxSat

/-- One declared clause. -/
inductive Entry where
  | hard (clause : Clause) (partition : Nat)
  | weighted (clause : Clause) (weight : Weight) (partition : Nat)
  deriving DecidableEq, Repr

namespace Entry

def clause : Entry → Clause
  | hard c _ => c
  | weighted c _ _ => c

def partition : Entry → Nat
  | hard _ p => p
  | weighted _ _ p => p

/-- Hard as declared, or by a positive weight that the top does not admit. -/
def asHard? (top : TopWeight) : Entry → Option HardClause
  | hard c p => some ⟨c, p⟩
  | weighted c w p => if 0 < w && !top.admits w then some ⟨c, p⟩ else none

/-- Positive and admitted by the top. -/
def asSoft? (top : TopWeight) : Entry → Option SoftClause
  | hard _ _ => none
  | weighted c w p => if 0 < w && top.admits w then some ⟨c, w, p⟩ else none

/-- Weight zero or below. -/
def asNegative? : Entry → Option SoftClause
  | hard _ _ => none
  | weighted c w p => if 0 < w then none else some ⟨c, w, p⟩

end Entry

structure Problem where
  top : TopWeight := .infinite
  /-- At least that many partitions exist. -/
  partitions : Nat := 0
  entries : List Entry := []
  comments : List String := []
  deriving DecidableEq, Repr

namespace Problem

/-- The largest variable of any declared clause. -/
def maxVar (p : Problem) : Nat := p.entries.foldr (fun e n => max (Clause.maxVar e.clause) n) 0

/-- One more than the largest index in use, and at least the declared number. -/
def numPartitions (p : Problem) : Nat :=
  p.entries.foldr (fun e n => max (min (e.partition + 1) lastPartition) n) p.partitions

def negatives (p : Problem) : List SoftClause := p.entries.filterMap Entry.asNegative?

/-- The top weight of the formula: one more than all soft weights if none was declared. -/
def resolveTop (top : TopWeight) (soft : List SoftClause) : Weight :=
  match top with
  | .finite w => w
  | .infinite => 1 + Weight.total (soft.map SoftClause.weight)

/-- The normalized formula. It fails only if a variable, declared or taken as a selector, is
past the largest id. Inside a partition soft clauses keep the order of declaration, derived
units last. -/
def build (p : Problem) : Except Fault Formula :=
  if MaxSat.maxVar < p.maxVar then .error .tooManyVariables
  else match normalize p.top p.maxVar p.negatives with
    | .error _ => .error .tooManyVariables
    | .ok n =>
      let soft := p.entries.filterMap (Entry.asSoft? p.top) ++ n.soft
      .ok {
        numVars := n.numVars
        inputVars := p.maxVar
        hard := p.entries.filterMap (Entry.asHard? p.top) ++ n.hard
        soft := soft.mergeSort fun a b => a.partition ≤ b.partition
        numPartitions := p.numPartitions
        topWeight := resolveTop p.top soft
        offset := Weight.total (p.negatives.map SoftClause.weight)
        comments := p.comments }

end Problem

end MaxSat

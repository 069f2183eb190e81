import MaxSat.Literal
import MaxSat.Weight

/-!
# Normalized formulas

A formula has hard clauses, which every solution satisfies, and soft clauses,
each with a positive weight that a solution pays if it falsifies the clause.
Soft clauses are kept grouped by partition in ascending order, so a bucket is
a run of neighbours and the buckets in order give the soft clauses back. Only
buckets that hold a clause exist as runs; an index below `numPartitions`
without a run is an empty bucket.

The type does not enforce these conditions: `Problem.build` establishes them.
-/

namespace MaxSat

/-- The largest partition index and count. -/
def lastPartition : Nat := 18446744073709551615

structure HardClause where
  clause : Clause
  partition : Nat
  deriving DecidableEq, Repr

structure SoftClause where
  clause : Clause
  weight : Weight
  partition : Nat
  deriving DecidableEq, Repr

/-- The weight from which on a clause is hard. -/
inductive TopWeight where
  | finite (weight : Weight)
  | infinite
  deriving DecidableEq, Repr

/-- Only weights below a finite top are soft. -/
def TopWeight.admits : TopWeight → Weight → Bool
  | finite top, w => w < top
  | infinite, _ => true

structure Formula where
  numVars : Nat
  /-- Variables in use before normalization took selectors. -/
  inputVars : Nat
  hard : List HardClause
  soft : List SoftClause
  numPartitions : Nat
  topWeight : Weight
  /-- The sum of the declared weights that are not positive. -/
  offset : Weight
  comments : List String
  deriving DecidableEq, Repr

/-- The soft clauses of one partition. -/
structure Bucket where
  partition : Nat
  clauses : List SoftClause
  deriving DecidableEq, Repr

/-- Positions of one bucket among the soft clauses, the end excluded. -/
structure BucketRange where
  partition : Nat
  start : Nat
  stop : Nat
  deriving DecidableEq, Repr

/-- Cuts a list into runs of neighbours with equal partition. -/
def bucketsOf : List SoftClause → List Bucket
  | [] => []
  | s :: rest =>
    match bucketsOf rest with
    | [] => [⟨s.partition, [s]⟩]
    | b :: bs =>
      if s.partition = b.partition then ⟨b.partition, s :: b.clauses⟩ :: bs
      else ⟨s.partition, [s]⟩ :: b :: bs

/-- Binary search for the bucket of a partition, among buckets in ascending order. -/
def searchBucket? (i : Nat) (bs : List Bucket) : Option Bucket :=
  match upper : bs.drop (bs.length / 2) with
  | [] => none
  | b :: above =>
    if b.partition = i then some b
    else if i < b.partition then searchBucket? i (bs.take (bs.length / 2))
    else searchBucket? i above
termination_by bs.length
decreasing_by
  all_goals
    have count := congrArg List.length upper
    simp only [List.length_drop, List.length_cons, List.length_take] at count ⊢
    omega

/-- The positions that the buckets take up if the first starts at `start`. -/
def rangesFrom (start : Nat) : List Bucket → List BucketRange
  | [] => []
  | b :: bs =>
    let stop := start + b.clauses.length
    ⟨b.partition, start, stop⟩ :: rangesFrom stop bs

namespace Formula

/-- The buckets that hold a clause, ascending. -/
def buckets (f : Formula) : List Bucket := bucketsOf f.soft

def ranges (f : Formula) : List BucketRange := rangesFrom 0 f.buckets

/-- The bucket of an index; empty for an index that nothing was put into, `none` past the
last one. -/
def bucket? (f : Formula) (i : Nat) : Option (List SoftClause) :=
  if i < f.numPartitions then
    some (((searchBucket? i f.buckets).map Bucket.clauses).getD [])
  else none

/-- The total weight of the soft clauses. -/
def softSum (f : Formula) : Weight := Weight.total (f.soft.map SoftClause.weight)

/-- The same formula with every soft clause in bucket 0. -/
def mergePartitions (f : Formula) : Formula :=
  { f with soft := f.soft.map fun s => { s with partition := 0 }, numPartitions := 1 }

/-- A valuation under which every hard clause is true. -/
def feasible (f : Formula) (ν : Valuation) : Bool := f.hard.all fun h => Clause.holds ν h.clause

/-- The total weight of the soft clauses that a valuation falsifies. -/
def cost (f : Formula) (ν : Valuation) : Weight :=
  Weight.total ((f.soft.filter fun s => !Clause.holds ν s.clause).map SoftClause.weight)

end Formula

end MaxSat

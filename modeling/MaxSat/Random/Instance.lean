import MaxSat.Formula.Problem
import MaxSat.Random.Source

/-!
# Random instances

Hard clauses are planted on a hidden assignment: a clause that the assignment
falsifies gets one literal flipped, so every instance is feasible. Soft clauses
are arbitrary, a share of them with negative weight. The generator works over
any source of choices; `Formula.random` takes a seed.

A clause is drawn until it has as many variables as it should, which a source that
repeats itself can put off for ever. So the number of draws for one clause is
bounded, and a clause that is not complete by then is given up and never cut short.
-/

namespace MaxSat

/-- Sizes of a random instance. Variables, width, weight and partitions count as at least 1. -/
structure RandomShape where
  vars : Nat := 8
  hard : Nat := 6
  soft : Nat := 10
  partitions : Nat := 3
  maxWidth : Nat := 3
  maxWeight : Int := 9
  /-- Percentage of soft clauses with a negative weight. -/
  negativePercent : Nat := 0
  deriving DecidableEq, Repr

/-- Why there is no instance of a shape. -/
inductive RandomFault where
  /-- The top weight, the number of partitions or the length of a clause is more than a
  machine can hold. -/
  | shapeTooLarge
  /-- A clause is given up after too many draws. -/
  | outOfDraws
  | invalid (fault : Fault)
  deriving DecidableEq, Repr

namespace RandomShape

def numVars (s : RandomShape) : Nat := max s.vars 1

def width (s : RandomShape) : Nat := max s.maxWidth 1

def weightLimit (s : RandomShape) : Nat := max s.maxWeight.toNat 1

def numBuckets (s : RandomShape) : Nat := max s.partitions 1

end RandomShape

/-- The largest signed 64-bit number. -/
def largestWeight : Nat := 9223372036854775807

/-- The most literals of eight bytes each that memory can be addressed for. -/
def largestClause : Nat := 1152921504606846975

namespace RandomInstance

open ChoiceSource

variable {γ : Type} [ChoiceSource γ]

/-- Runs `step` a number of times, as long as it gives a result; `acc` holds the results so
far, newest first. -/
def collect {α : Type} (step : γ → Except RandomFault (α × γ)) :
    Nat → List α → γ → Except RandomFault (List α × γ)
  | 0, acc, g => .ok (acc.reverse, g)
  | n + 1, acc, g =>
    match step g with
    | .error fault => .error fault
    | .ok (a, g) => collect step n (a :: acc) g

/-- Draws literals of distinct variables until the clause, kept newest first, has `len` of
them. A repeated variable is drawn again, unless every variable is in use. There is no clause
if it takes more than `draws` rounds. -/
def fillClause (vars len : Nat) : Nat → Clause → γ → Option (Clause × γ)
  | 0, _, _ => none
  | draws + 1, acc, g =>
    if len ≤ acc.length then some (acc.reverse, g)
    else
      let (v, g) := pick g .bits32 1 vars
      if acc.any fun l => l.var == v then
        if vars ≤ acc.length then some (acc.reverse, g) else fillClause vars len draws acc g
      else
        let (b, g) := flip g
        fillClause vars len draws (⟨v, b⟩ :: acc) g

/-- A clause of one up to `width` literals, unless so many are drawn that there can be no
room for them. -/
def drawClause (draws vars width : Nat) (g : γ) : Except RandomFault (Clause × γ) :=
  let (len, g) := pick g (.forCount width) 1 width
  if largestClause < len then .error .shapeTooLarge
  else match fillClause vars len draws [] g with
    | none => .error .outOfDraws
    | some drawn => .ok drawn

def flipAt : Nat → Clause → Clause
  | _, [] => []
  | 0, l :: c => l.negate :: c
  | i + 1, l :: c => l :: flipAt i c

/-- Makes a clause true under the hidden assignment by flipping one literal if need be. -/
def plant (planted : Valuation) (c : Clause) (g : γ) : Clause × γ :=
  if Clause.holds planted c then (c, g)
  else
    let last := c.length - 1
    let (i, g) := pick g (.forCount last) 0 last
    (flipAt i c, g)

def drawPartition (s : RandomShape) (g : γ) : Nat × γ :=
  pick g (.forCount s.numBuckets) 1 s.numBuckets

def drawHard (draws : Nat) (s : RandomShape) (planted : Valuation) (g : γ) :
    Except RandomFault (Entry × γ) :=
  (drawClause draws s.numVars s.width g).map fun (c, g) =>
    let (c, g) := plant planted c g
    let (p, g) := drawPartition s g
    (.hard c p, g)

def drawSoft (draws : Nat) (s : RandomShape) (g : γ) : Except RandomFault (Entry × γ) :=
  (drawClause draws s.numVars s.width g).map fun (c, g) =>
    let (w, g) := pick g .bits64 1 s.weightLimit
    let (percent, g) := pick g .bits32 0 99
    let weight : Weight := (w : Weight)
    let weight := if percent < s.negativePercent then -weight else weight
    let (p, g) := drawPartition s g
    (.weighted c weight p, g)

/-- The hidden assignment and the declared clauses. -/
def drawEntries (draws : Nat) (s : RandomShape) (g : γ) :
    Except RandomFault (Array Bool × List Entry) := do
  let (planted, g) ← collect (fun g => .ok (flip g)) (s.numVars + 1) [] g
  let planted := planted.toArray
  let (hard, g) ← collect (drawHard draws s (valuation planted)) s.hard [] g
  let (soft, _) ← collect (drawSoft draws s) s.soft [] g
  return (planted, hard ++ soft)

/-- The declared problem; the top weight is one past the largest weight. -/
def problem (s : RandomShape) (comment : String) (entries : List Entry) : Problem where
  top := .finite ((s.weightLimit + 1 : Nat) : Weight)
  partitions := s.numBuckets + 1
  entries := entries
  comments := [comment]

/-- The instance that a source gives, with the hidden assignment and the declared clauses. -/
def generate (draws : Nat) (s : RandomShape) (comment : String) (g : γ) :
    Except RandomFault (Array Bool × List Entry × Formula) :=
  if largestWeight < s.weightLimit + 1 || lastPartition < s.numBuckets + 1 then
    .error .shapeTooLarge
  else match drawEntries draws s g with
    | .error fault => .error fault
    | .ok (planted, entries) =>
      match (problem s comment entries).build with
      | .ok f => .ok (planted, entries, f)
      | .error fault => .error (.invalid fault)

end RandomInstance

/-- The random instance of a shape and a seed. So many draws are allowed for a clause that a
uniform source in effect never uses them up. -/
def Formula.random (s : RandomShape) (seed : UInt64) : Except RandomFault Formula :=
  let comment := "c random pwcnf seed=" ++ String.ofList (Text.ofNatural seed.toNat) ++
    " vars=" ++ String.ofList (Text.ofNatural s.numVars)
  let draws := 1000 * (s.numVars + 1)
  (RandomInstance.generate draws s comment (KeyStream.ofSeed seed)).map fun (_, _, f) => f

end MaxSat

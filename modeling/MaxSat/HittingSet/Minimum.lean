import MaxSat.Weight

/-!
# Minimum-weight hitting sets

Branch and bound over a list of cores. A greedy set gives the first bound; the
search branches on the first core with the fewest open members, cheapest member
first, and forbids a member in the branches of its later siblings, so that no
set is visited twice. The bound adds up the cheapest open member of pairwise
disjoint cores that are not hit yet.

The result is of least weight if no weight is negative. With negative weights
it still hits every core, but the bound may cut off a cheaper set.
-/

namespace MaxSat.HittingSet

/-- How far a set has been decided on. -/
structure Marks where
  /-- The variables taken into the set. -/
  chosen : List Nat := []
  /-- The variables ruled out of it. -/
  forbidden : List Nat := []
  /-- The cores that no chosen variable hits. -/
  unhit : List (List Nat)

/-- The best hitting set found so far. -/
structure Best where
  set : List Nat
  cost : Weight

/-- Some variable of `set` is a member. -/
def hits (set core : List Nat) : Bool := core.any set.contains

namespace Marks

def choose (m : Marks) (v : Nat) : Marks :=
  { m with chosen := v :: m.chosen, unhit := m.unhit.filter fun core => !core.contains v }

def forbid (m : Marks) (v : Nat) : Marks := { m with forbidden := v :: m.forbidden }

/-- Members that are not ruled out. -/
def openIn (m : Marks) (core : List Nat) : List Nat :=
  core.filter fun v => !m.forbidden.contains v

end Marks

/-- The cheapest variable of a list, the first of several. -/
def cheapest? (weight : Nat → Weight) (vs : List Nat) : Option Nat := vs.minOn? weight

/-- Takes the cheapest member of each core, in order, that is not hit so far. -/
def greedy (weight : Nat → Weight) : List (List Nat) → List Nat → List Nat
  | [], set => set
  | core :: rest, set =>
    if hits set core then greedy weight rest set
    else match cheapest? weight core with
      | some v => greedy weight rest (v :: set)
      | none => greedy weight rest set

/-- Adds up cheapest open members over those of the given cores that meet no variable used
before and no core counted before. A core's ruled-out members count for meeting. -/
def boundFrom (weight : Nat → Weight) (m : Marks) : List Nat → List (List Nat) → Weight
  | _, [] => 0
  | used, core :: rest =>
    if hits used core then boundFrom weight m used rest
    else
      let least := match cheapest? weight (m.openIn core) with
        | some v => weight v
        | none => 0
      least + boundFrom weight m (core ++ used) rest

/-- What any completion of the chosen variables has to pay at least. -/
def lowerBound (weight : Nat → Weight) (m : Marks) : Weight := boundFrom weight m [] m.unhit

/-- Where a search node stands: some core can no longer be hit, all cores are hit, or the
open members of a core are to be branched on. -/
inductive Node where
  | dead
  | covered
  | branch (candidates : List Nat)

/-- The first core with the fewest open members is branched on. -/
def Marks.node (m : Marks) : Node :=
  let candidates := m.unhit.map m.openIn
  if candidates.any List.isEmpty then .dead
  else match candidates.minOn? List.length with
    | none => .covered
    | some vs => .branch vs

/-- Runs `child` once per candidate, with the candidate chosen and the ones before it
forbidden. -/
def siblings (child : Marks → Weight → Best → Best) (weight : Nat → Weight) (cost : Weight) :
    List Nat → Marks → Best → Best
  | [], _, best => best
  | v :: vs, m, best =>
    siblings child weight cost vs (m.forbid v) (child (m.choose v) (cost + weight v) best)

/-- Depth-first search. Every level hits one more core, so a depth of one more than the
number of cores is never used up. -/
def explore (weight : Nat → Weight) : Nat → Marks → Weight → Best → Best
  | 0, _, _, best => best
  | depth + 1, m, cost, best =>
    match m.node with
    | .dead => best
    | .covered => if cost < best.cost then ⟨m.chosen, cost⟩ else best
    | .branch candidates =>
      if best.cost ≤ cost + lowerBound weight m then best
      else
        let candidates := candidates.mergeSort fun a b => weight a ≤ weight b
        siblings (explore weight depth) weight cost candidates m best

/-- A hitting set of all cores, ascending; of least weight if no weight is negative. -/
def minimum (weight : Nat → Weight) (cores : List (List Nat)) : List Nat :=
  let seed := greedy weight cores []
  let best := explore weight (cores.length + 1) { unhit := cores } 0
    ⟨seed, Weight.total (seed.map weight)⟩
  best.set.mergeSort fun a b => a ≤ b

end MaxSat.HittingSet

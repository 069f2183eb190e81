import MaxSat.HittingSet.Minimum

/-!
# A growing collection of cores

A core names relaxation variables of soft clauses that cannot all be satisfied
together, each with the weight of its clause. Members are ascending and distinct
by variable.

The hitter records cores and answers with a hitting set of all it has seen. A
variable weighs what the first recorded core that names it says; later cores do
not change that. An answer is kept until the next core is recorded.
-/

namespace MaxSat

structure Core where
  members : List (Nat × Weight)
  deriving DecidableEq

namespace Core

/-- Of neighbours that name the same variable the first stays. -/
def dropRepeats : List (Nat × Weight) → List (Nat × Weight)
  | [] => []
  | a :: rest => a :: (dropRepeats rest).dropWhile fun b => b.1 == a.1

/-- Sorts the members by variable; of several for one variable the first given stays. -/
def ofMembers (ms : List (Nat × Weight)) : Core :=
  ⟨dropRepeats (ms.mergeSort fun a b => a.1 ≤ b.1)⟩

def vars (c : Core) : List Nat := c.members.map Prod.fst

end Core

structure Hitter where
  /-- Variables with their weights, in the order of first mention. -/
  weights : List (Nat × Weight) := []
  /-- The variables of each recorded core. -/
  cores : List (List Nat) := []
  /-- The last answer, unless a core was recorded after it. -/
  last : Option (List Nat) := none
  deriving DecidableEq

namespace Hitter

def weight? (h : Hitter) (v : Nat) : Option Weight := h.weights.lookup v

/-- A variable that no core names weighs nothing. -/
def weight (h : Hitter) (v : Nat) : Weight := (h.weight? v).getD 0

/-- Keeps the weight of a variable that already has one. -/
def mention (ws : List (Nat × Weight)) (m : Nat × Weight) : List (Nat × Weight) :=
  if (ws.lookup m.1).isSome then ws else ws ++ [m]

/-- Records a core. An empty core cannot be hit and is not recorded. -/
def hit (h : Hitter) (c : Core) : Hitter :=
  if c.members.isEmpty then h
  else {
    weights := c.members.foldl mention h.weights
    cores := h.cores ++ [c.vars]
    last := none }

/-- A hitting set of the recorded cores, ascending; the last answer, if it was kept. -/
def ask (h : Hitter) : List Nat × Hitter :=
  match h.last with
  | some set => (set, h)
  | none =>
    let set := HittingSet.minimum h.weight h.cores
    (set, { h with last := some set })

/-- The total weight of the listed variables that some recorded core names. -/
def costOf (h : Hitter) (set : List Nat) : Weight := Weight.total (set.filterMap h.weight?)

end Hitter

end MaxSat

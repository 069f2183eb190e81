import MaxSat.Learning.ClauseBase
import MaxSat.Learning.Conflict

/-!
# Search with learning

Choices are made until all variables that occur are bound or a clause becomes
false. A false clause gives a lesson; the search goes back to the earliest level
on which the lesson forces a literal, and goes on from there. Variables of
recent lessons are chosen first, with the values they had last.

A search is interrupted once it has learned as many clauses as it is allowed.
Between two lessons there are at most as many choices as variables, which bounds
the number of turns.
-/

namespace MaxSat.Learning

structure State where
  base : ClauseBase
  trail : Trail
  /-- By variable; those of recent lessons have the highest. -/
  scores : Array Nat
  /-- The variables to be chosen from, by descending score. -/
  order : List Nat
  /-- The part of the order that is not known to be bound. -/
  candidates : List Nat
  /-- The values that variables had last. -/
  phases : Array Bool
  /-- Clauses learned so far, the latest first. -/
  lemmas : List Clause
  /-- The number of clauses ever learned. -/
  time : Nat := 0
  /-- The number of clauses that may still be learned. -/
  patience : Nat

inductive Verdict where
  /-- The trail has a model. -/
  | satisfied
  /-- A clause that follows from those at hand and is false on level 0. -/
  | refuted (clause : Clause)
  | interrupted

namespace State

/-- Draws the consequences of literals just made true; gives a clause that became false. -/
def propagate (s : State) (ls : List Lit) : Option Clause × State :=
  let w := Learning.propagate s.base s.trail ls
  (w.conflict, { s with base := w.base, trail := w.trail })

/-- Moves the scores of a clause's variables an eighth of the way to the present time, and
the variables to their new places in the order. -/
def bump (s : State) (c : Clause) : State :=
  let now := 1024 * (s.time + 1)
  let scores := c.foldl (fun a l => a.modify l.var fun x => (7 * x + now) / 8) s.scores
  let higher (v w : Nat) : Bool := scores.getD w 0 ≤ scores.getD v 0
  let vars := c.map Lit.var
  let others := s.order.filter fun v => !vars.contains v
  { s with scores, order := (vars.mergeSort higher).merge others higher, time := s.time + 1 }

/-- Keeps the values of bound variables for later choices. -/
def remember (s : State) : State :=
  let phases := s.trail.steps.foldl (fun a l => a.setIfInBounds l.var l.positive) s.phases
  { s with phases }

/-- Goes back to the level of a lesson and makes the forced literal true there. The clause
watches this literal and the one that was bound last among the others. -/
def learn (s : State) (x : Lesson) : State :=
  let s := s.remember.bump x.clause
  let (level, base) := match x.latest with
    | none => (0, s.base)
    | some l => (s.trail.levelOf l, s.base.add x.clause x.forced l)
  { s with
    base
    trail := (s.trail.backTo level).push x.forced (some x.clause)
    candidates := s.order
    lemmas := x.clause :: s.lemmas
    patience := s.patience - 1 }

/-- The literal to be chosen next, unless all variables are bound. -/
def choice? (s : State) : Option (Lit × List Nat) :=
  match s.candidates.dropWhile s.trail.isBound with
  | [] => none
  | v :: rest => some (⟨v, s.phases.getD v false⟩, rest)

/-- Goes on from literals just made true, for a number of turns. -/
def search : Nat → List Lit → State → Verdict × State
  | 0, _, s => (.interrupted, s)
  | n + 1, ls, s =>
    match s.propagate ls with
    | (some c, s) =>
      let c := s.trail.analyze c
      if s.trail.level = 0 then (.refuted c, s)
      else match Lesson.ofClause? s.trail c with
        | none => (.interrupted, s)
        | some x =>
          let s := s.learn x
          if s.patience = 0 then (.interrupted, s) else search n [x.forced] s
    | (none, s) =>
      match s.choice? with
      | none => (.satisfied, s)
      | some (l, candidates) => search n [l] { s with candidates, trail := s.trail.choose l }

end State

end MaxSat.Learning

import MaxSat.Learning.Trail

/-!
# Watched clauses

Two literals of every clause are watched. A clause can force a literal only
once a watched one is false, and is looked at then: another literal that is not
false takes over the watch, or the other watched literal is forced. Undoing
bindings leaves the watches in order. Clauses of fewer than two literals are
not watched.
-/

namespace MaxSat

/-- A number of its own for each literal. -/
def Lit.code (l : Lit) : Nat := 2 * l.var + l.positive.toNat

namespace Learning

structure ClauseBase where
  clauses : Array Clause := #[]
  /-- The watched literals of each clause. -/
  watched : Array (Lit × Lit) := #[]
  /-- The clauses that watch a literal, by its code. -/
  watchers : Array (List Nat) := #[]

namespace ClauseBase

/-- No clauses, and room for the variables below the width. -/
def ofWidth (n : Nat) : ClauseBase := { watchers := Array.replicate (2 * n) [] }

def watch (b : ClauseBase) (l : Lit) (i : Nat) : ClauseBase :=
  { b with watchers := b.watchers.modify l.code (i :: ·) }

/-- Adds a clause that watches two of its literals. -/
def add (b : ClauseBase) (c : Clause) (p q : Lit) : ClauseBase :=
  let i := b.clauses.size
  ({ b with clauses := b.clauses.push c, watched := b.watched.push (p, q) }.watch p i).watch q i

/-- Replaces the watched literals of a clause by a new one and one that stays. -/
def rewatch (b : ClauseBase) (i : Nat) (p q : Lit) : ClauseBase :=
  { b with watched := b.watched.setIfInBounds i (p, q) }.watch p i

def setWatchers (b : ClauseBase) (l : Lit) (is : List Nat) : ClauseBase :=
  { b with watchers := b.watchers.setIfInBounds l.code is }

end ClauseBase

/-- A propagation under way. -/
structure Wave where
  base : ClauseBase
  trail : Trail
  /-- Literals made true whose consequences are still to be drawn, the latest first. -/
  pending : List Lit := []
  /-- A clause that became false. -/
  conflict : Option Clause := none

namespace Wave

def force (w : Wave) (l : Lit) (reason : Clause) : Wave :=
  { w with trail := w.trail.push l (some reason), pending := l :: w.pending }

/-- Looks at the clauses that watch a literal which became false; `kept` are those that go
on watching it. -/
def visit (l : Lit) : List Nat → List Nat → Wave → Wave
  | [], kept, w => { w with base := w.base.setWatchers l kept }
  | i :: rest, kept, w =>
    let c := w.base.clauses.getD i []
    let (p, q) := w.base.watched.getD i (l, l)
    let other := if p == l then q else p
    if w.trail.isTrue other then visit l rest (i :: kept) w
    else
      match c.find? fun k => !w.trail.isFalse k && k != other with
      | some k => visit l rest kept { w with base := w.base.rewatch i k other }
      | none =>
        if w.trail.isFalse other then
          { w with base := w.base.setWatchers l (i :: rest ++ kept), conflict := some c }
        else visit l rest (i :: kept) (w.force other c)

/-- Draws the consequences of the given literals, then those of the pending ones. A bound on
the number of literals and of turns is given. -/
def run : Nat → List Lit → Wave → Wave
  | 0, _, w => w
  | n + 1, l :: ls, w =>
    let w := w.visit l.negate (w.base.watchers.getD l.negate.code []) []
    if w.conflict.isSome then w else run n ls w
  | n + 1, [], w =>
    if w.pending.isEmpty then w else run n w.pending.reverse { w with pending := [] }

end Wave

/-- All consequences of literals that were just made true. -/
def propagate (b : ClauseBase) (t : Trail) (ls : List Lit) : Wave :=
  Wave.run (2 * t.bindings.size + 2) ls { base := b, trail := t }

end Learning

end MaxSat

import MaxSat.Cnf

/-!
# Model search

Depth-first search with unit propagation. Variables are tried in ascending
order and `false` before `true`; variables that no clause decides stay false.
Variable 0 is never branched on, so a store that hangs on it alone is reported
as having no model.
-/

namespace MaxSat.Search

/-- One clause's turn in a propagation pass: `none` if the clause is false, the last
undecided occurrence made true if there is exactly one, no change otherwise. -/
def visit (a : Assignment) (c : Clause) : Option Assignment :=
  if c.any fun l => l.status a == some true then some a
  else match c.filter fun l => (l.status a).isNone with
    | [] => none
    | [l] => some (a.assign l.var l.positive)
    | _ => some a

/-- Each clause in turn, under the values that the ones before it forced. -/
def pass : List Clause → Assignment → Option Assignment
  | [], a => some a
  | c :: cs, a => (visit a c).bind (pass cs)

/-- Passes until one assigns nothing; `none` if a clause became false. -/
def propagate (cs : List Clause) (a : Assignment) : Option Assignment :=
  match pass cs a with
  | none => none
  | some b => if b.unassigned < a.unassigned then propagate cs b else some b
termination_by a.unassigned

/-- Propagates, and leaves it to `next` to go on if the store is still undecided. -/
def settle (f : Cnf) (next : Assignment → Option Assignment) (a : Assignment) :
    Option Assignment :=
  match propagate f.clauses a with
  | none => none
  | some b =>
    match f.status b with
    | some true => some b
    | some false => none
    | none => next b

/-- Tries both values of the first variable of the list that has none. -/
def branch (f : Cnf) : List Nat → Assignment → Option Assignment
  | [], _ => none
  | v :: vs, a =>
    if (a.value v).isSome then branch f vs a
    else (settle f (branch f vs) (a.assign v false)).or
      (settle f (branch f vs) (a.assign v true))

/-- Makes every assumed literal true, unless two of them contradict each other. -/
def assume : List Lit → Assignment → Option Assignment
  | [], a => some a
  | l :: ls, a =>
    match a.value l.var with
    | some b => if b == l.positive then assume ls a else none
    | none => assume ls (a.assign l.var l.positive)

/-- All variables of the store and of the assumptions, and variable 0. -/
def width (f : Cnf) (assumptions : List Lit) : Nat :=
  max f.numVars (Clause.maxVar assumptions) + 1

/-- A model of the store in which every assumption holds, by index. -/
def model? (f : Cnf) (assumptions : List Lit) : Option (Array Bool) :=
  let w := width f assumptions
  match assume assumptions (Array.replicate w none) with
  | none => none
  | some a => (settle f (branch f (List.range' 1 (w - 1))) a).map Assignment.complete

def satisfiable (f : Cnf) (assumptions : List Lit) : Bool := (model? f assumptions).isSome

end MaxSat.Search

import MaxSat.Learning.Search

/-!
# Models and cores by learning

A search starts from the literals of unit clauses and the assumed literals, all
on level 0. When it is interrupted another round begins, with more patience,
with the shorter and the latest lemmas, and with scores and phases as they are.

Nothing rests on the watches, the order of choices or the number of rounds: a
model is checked before it is given out, and so is that a core has assumptions
only. What a core rests on is that lemmas are made by resolution.
-/

namespace MaxSat.Learning

/-- Makes the literals of unit clauses true. Two that contradict each other give what is
learned from them. -/
def facts : List Clause → Trail → Except Clause Trail
  | [], t => .ok t
  | [] :: _, _ => .error []
  | [l] :: cs, t =>
    if t.isTrue l then facts cs t
    else if t.isFalse l then .error (t.analyze [l])
    else facts cs (t.push l (some [l]))
  | (_ :: _ :: _) :: cs, t => facts cs t

/-- Makes the assumed literals true. One that is false already gives what is learned from
the clause that made it so. -/
def assume : List Lit → Trail → Except Clause Trail
  | [], t => .ok t
  | l :: ls, t =>
    if t.isTrue l then assume ls t
    else if t.isFalse l then .error (t.analyze ((t.reason? l.var).getD [l, l.negate]))
    else assume ls (t.push l none)

/-- Watches all clauses of two literals or more. -/
def ClauseBase.ofClauses (width : Nat) (cs : List Clause) : ClauseBase :=
  cs.foldl (fun b c =>
    match c with
    | p :: q :: _ => b.add c p q
    | _ => b) (ClauseBase.ofWidth width)

/-- How often each variable occurs. -/
def occurrences (width : Nat) (cs : List Clause) : Array Nat :=
  cs.foldl (fun a c => c.foldl (fun (a : Array Nat) l => a.modify l.var (· + 1)) a)
    (Array.replicate width 0)

/-- The variables that occur, those that occur often first. From sixteen occurrences on they
count the same. -/
def byOccurrence (counts : Array Nat) : List Nat :=
  let vars := (List.range counts.size).filter fun v => 0 < counts.getD v 0
  (List.range 17).reverse.flatMap fun n => vars.filter fun v => min 16 (counts.getD v 0) == n

/-- Lemmas worth keeping: the short ones and the latest of the others. -/
def retain (lemmas : List Clause) : List Clause :=
  let (short, long) := lemmas.partition fun c => c.length ≤ 6
  short ++ long.take 500

namespace State

/-- Before the first round. -/
def ofClauses (width patience : Nat) (cs lemmas : List Clause) : State :=
  let scores := occurrences width cs
  let order := byOccurrence scores
  { base := ClauseBase.ofClauses width (cs ++ lemmas)
    trail := Trail.ofWidth width
    scores
    order
    candidates := order
    phases := Array.replicate width false
    lemmas
    patience }

/-- Before another round. -/
def renew (s : State) (patience : Nat) (cs : List Clause) : State :=
  let width := s.phases.size
  let lemmas := retain s.lemmas
  { s with
    base := ClauseBase.ofClauses width (cs ++ lemmas)
    trail := Trail.ofWidth width
    candidates := s.order
    lemmas
    patience }

/-- Binds what holds before any choice, or gives a clause that is false then. -/
def start (cs : List Clause) (assumptions : List Lit) (s : State) : Except Clause State := do
  let t ← facts (cs ++ s.lemmas) s.trail
  match { s with trail := t }.propagate t.steps with
  | (some c, s) => .error (s.trail.analyze c)
  | (none, s) => return { s with trail := ← assume assumptions s.trail }

def round (cs : List Clause) (assumptions : List Lit) (s : State) : Verdict × State :=
  match s.start cs assumptions with
  | .error c => (.refuted c, s)
  | .ok s => s.search ((s.patience + 1) * (s.phases.size + 1)) s.trail.steps

/-- Rounds of growing patience, up to a number of them. -/
def rounds (cs : List Clause) (assumptions : List Lit) :
    Nat → Nat → State → Verdict × State
  | 0, _, s => (.interrupted, s)
  | n + 1, patience, s =>
    match s.round cs assumptions with
    | (.interrupted, s) => rounds cs assumptions n (patience + 50) (s.renew (patience + 50) cs)
    | answer => answer

end State

inductive Answer where
  | model (values : Array Bool)
  /-- Assumed literals that cannot all hold. -/
  | core (literals : List Lit)

/-- The answer that a verdict amounts to, if it stands up to a check. -/
def Verdict.answer? (f : Cnf) (assumptions : List Lit) (t : Trail) : Verdict → Option Answer
  | satisfied =>
    let values := t.model
    let ν := valuation values
    if f.holds ν && assumptions.all (Lit.holds ν) then some (.model values) else none
  | refuted c =>
    let core := c.map Lit.negate
    if core.all assumptions.contains then some (.core core) else none
  | interrupted => none

/-- A model of the store in which the assumptions hold, or a core of them, with the lemmas
to go on with. The lemmas given have to follow from the store. -/
def solve (f : Cnf) (lemmas : List Clause) (assumptions : List Lit) :
    Option Answer × List Clause :=
  let width := max f.numVars (Clause.maxVar assumptions) + 1
  let first := State.ofClauses width 300 f.clauses lemmas
  let (verdict, last) := first.rounds f.clauses assumptions 10000 300
  (verdict.answer? f assumptions last.trail, retain last.lemmas)

end MaxSat.Learning

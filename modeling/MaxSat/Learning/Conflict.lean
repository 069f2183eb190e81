import MaxSat.Learning.Trail

/-!
# Learning from a conflict

A clause that is false under a trail is resolved with the reasons of the
literals that made it so, the latest first. Each resolvent follows from the two
clauses it is made of, so what is learned follows from the clauses at hand,
whatever the trail is.
-/

namespace MaxSat

/-- The resolvent of a clause with a negated literal and one with the literal itself. -/
def Clause.resolve (l : Lit) (c reason : Clause) : Clause :=
  (reason.filter fun k => k != l && !c.contains k) ++ c.filter fun k => k != l.negate

namespace Learning

namespace Trail

/-- Goes back over the given steps and resolves the clause with the reasons of the literals
it negates. Once it is as wanted, only reasons that bring no new literals are used. -/
def resolveBack (t : Trail) (wanted : Clause → Bool) : List Lit → Clause → Clause
  | [], c => c
  | l :: steps, c =>
    if !c.contains l.negate then resolveBack t wanted steps c
    else match t.reason? l.var with
      | none => resolveBack t wanted steps c
      | some reason =>
        if wanted c && reason.any fun k => k != l && !c.contains k then
          resolveBack t wanted steps c
        else resolveBack t wanted steps (c.resolve l reason)

/-- Whether the literal's variable was bound on the present level. -/
def isRecent (t : Trail) (l : Lit) : Bool := t.levelOf l == t.level

/-- What a false clause teaches: a clause with at most one literal of the present level. On
level 0 only literals without a reason are left. -/
def analyze (t : Trail) (c : Clause) : Clause :=
  t.resolveBack (fun c => t.level != 0 && c.countP t.isRecent ≤ 1) t.steps c

/-- The literal of the highest level. -/
def latest? (t : Trail) : List Lit → Option Lit
  | [] => none
  | l :: ls =>
    match t.latest? ls with
    | none => some l
    | some k => if t.levelOf l < t.levelOf k then some k else some l

end Trail

/-- A clause that was learned, with the literal that it forces on an earlier level. -/
structure Lesson where
  clause : Clause
  forced : Lit
  /-- The one bound last among the other literals; its level is the one to go back to. -/
  latest : Option Lit

/-- Reads off a clause what it forces when the present level is taken back. -/
def Lesson.ofClause? (t : Trail) (c : Clause) : Option Lesson :=
  match c.partition t.isRecent with
  | ([l], others) => some ⟨c, l, t.latest? others⟩
  | _ => none

end Learning

end MaxSat

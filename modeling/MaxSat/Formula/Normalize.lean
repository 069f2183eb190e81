import MaxSat.Formula.Basic

/-!
# Weights that are not positive

A clause declared with a weight `w ≤ 0` costs `-w` when it is *satisfied*, up
to the constant `w`. So its negation becomes a soft clause of weight `-w`. The
negation of a unit clause is a unit clause; a longer clause gets a selector, a
fresh variable made equivalent to it by hard clauses, whose negation is the
soft unit. A derived unit whose weight is not below the top is hard. Zero
weights and empty clauses contribute nothing.
-/

namespace MaxSat

structure Normalized where
  /-- Variables in use afterwards, selectors included. -/
  numVars : Nat
  selectors : Nat := 0
  hard : List HardClause := []
  soft : List SoftClause := []
  deriving DecidableEq, Repr

namespace Normalized

/-- Hard clauses that make `s` equivalent to the clause. -/
def definition (s : Nat) (c : Clause) (partition : Nat) : List HardClause :=
  c.map (fun l => ⟨[Lit.pos s, l.negate], partition⟩) ++ [⟨Lit.neg s :: c, partition⟩]

/-- The derived unit `[¬l]` of weight `w`, hard if the top does not admit `w`. -/
def addUnit (top : TopWeight) (l : Lit) (w : Weight) (partition : Nat) (n : Normalized) :
    Normalized :=
  if top.admits w then { n with soft := ⟨[l.negate], w, partition⟩ :: n.soft }
  else { n with hard := ⟨[l.negate], partition⟩ :: n.hard }

end Normalized

/-- Normalizes clauses in order, taking selectors from `numVars` on. If a selector would be
past `maxVar` the result is the number of variables in use by then. -/
def normalize (top : TopWeight) : Nat → List SoftClause → Except Nat Normalized
  | numVars, [] => .ok { numVars }
  | numVars, s :: rest =>
    let w := -s.weight
    if w = 0 then normalize top numVars rest
    else match s.clause with
      | [] => normalize top numVars rest
      | [l] => (normalize top numVars rest).map (Normalized.addUnit top l w s.partition)
      | c =>
        let sel := numVars + 1
        if maxVar < sel then .error numVars
        else (normalize top sel rest).map fun n =>
          let n := Normalized.addUnit top (Lit.pos sel) w s.partition n
          { n with
            selectors := n.selectors + 1
            hard := Normalized.definition sel c s.partition ++ n.hard }

end MaxSat

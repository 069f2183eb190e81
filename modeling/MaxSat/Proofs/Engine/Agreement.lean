import MaxSat.Proofs.Engine.Protocol
import MaxSat.Proofs.Engine.Optimality

/-!
# The choice of SAT oracle

A conforming oracle may pick any model and any refuted part of the assumptions.
Other picks lead to other cores, other hitting sets and other stages, yet what
a run comes to is settled by the formula: right results of one formula agree.
-/

namespace MaxSat

/-- Both say that there is no solution, or both give one and the costs are equal. -/
inductive Outcome.Agrees : Except SolveError Outcome → Except SolveError Outcome → Prop
  | infeasible : Agrees (.ok .infeasible) (.ok .infeasible)
  | optimum {one other : Solution} (cost : one.cost = other.cost) :
      Agrees (.ok (.optimum one)) (.ok (.optimum other))

theorem Solution.Optimal.cost_le {f : Formula} {one other : Solution} (best : one.Optimal f)
    (optimal : other.Optimal f) : one.cost ≤ other.cost := by
  rw [optimal.cost]
  exact best.least _ optimal.feasible

theorem Outcome.Right.agrees {f : Formula} {one other : Except SolveError Outcome}
    (right : Outcome.Right f one) (right' : Outcome.Right f other) : Outcome.Agrees one other := by
  cases right with
  | infeasible none_ =>
    cases right' with
    | infeasible _ => exact .infeasible
    | optimum optimal =>
      have feasible := optimal.feasible
      rw [none_] at feasible
      cases feasible
  | optimum best =>
    cases right' with
    | infeasible none_ =>
      have feasible := best.feasible
      rw [none_] at feasible
      cases feasible
    | optimum optimal => exact .optimum (le_antisymm (best.cost_le optimal) (optimal.cost_le best))

/-- Any two runs on conforming oracles that hold no clauses yet come to the same result, in
whichever modes and with or without minimization. -/
theorem Run.solve_agrees {σ τ : Type} [SatOracle σ] [SatOracle τ] {Holds : σ → List Clause → Prop}
    {Holds' : τ → List Clause → Prop} (conforming : Conforming σ Holds)
    (conforming' : Conforming τ Holds') {f : Formula} (wellFormed : f.WellFormed)
    (proper : f.Proper) {sat : σ} {sat' : τ} (holds : Holds sat []) (holds' : Holds' sat' [])
    (room : max (SatOracle.numVars sat) f.numVars + f.soft.length ≤ maxVar)
    (room' : max (SatOracle.numVars sat') f.numVars + f.soft.length ≤ maxVar) (mode mode' : Mode)
    (o o' : RunOptions) (enough : f.roundBound ≤ o.rounds) (enough' : f.roundBound ≤ o'.rounds) :
    Outcome.Agrees (Run.solve f mode o sat ({} : Hitter)).1
      (Run.solve f mode' o' sat' ({} : Hitter)).1 := by
  have right := Run.solve_right conforming wellFormed proper holds room mode enough
  have right' := Run.solve_right conforming' wellFormed proper holds' room' mode' enough'
  exact right.agrees right'

/-- Solves as the exhaustive solver does, but blames all of the assumptions, the last one
first. -/
structure CoarseSolver where
  inner : ExhaustiveSolver := {}

namespace CoarseSolver

def solve (s : CoarseSolver) (assumptions : List Lit) : Reply × CoarseSolver :=
  match s.inner.solve assumptions with
  | (.unsat _, inner) => (.unsat (some assumptions.reverse), ⟨inner⟩)
  | (reply, inner) => (reply, ⟨inner⟩)

instance : SatOracle CoarseSolver where
  name _ := "coarse"
  numVars s := s.inner.cnf.numVars
  reserve s n := ⟨s.inner.reserve n⟩
  freshVar s := (s.inner.freshVar.1, ⟨s.inner.freshVar.2⟩)
  addClause s c := ⟨s.inner.addClause c⟩
  solve := solve
  value s := s.inner.value
  tally s := s.inner.tally

def Holds (s : CoarseSolver) (cs : List Clause) : Prop := s.inner.Holds cs

theorem holds_nil : Holds {} [] := ExhaustiveSolver.holds_nil

theorem conforming : Conforming CoarseSolver Holds where
  reserve holds n := ExhaustiveSolver.conforming.reserve holds n
  freshVar holds room := ExhaustiveSolver.conforming.freshVar holds room
  addClause holds inUse := ExhaustiveSolver.conforming.addClause holds inUse
  solve {s cs ls} holds distinct inUse := by
    obtain ⟨kept, count, right⟩ := ExhaustiveSolver.solve_right holds distinct inUse
    change Holds (solve s ls).2 cs ∧ (solve s ls).2.inner.cnf.numVars = s.inner.cnf.numVars ∧
      (solve s ls).1.Right cs ls s.inner.cnf.numVars (solve s ls).2.inner.value
    rw [solve]
    generalize s.inner.solve ls = answer at kept count right
    obtain ⟨reply, inner⟩ := answer
    cases right with
    | sat ν clauses literals values => exact ⟨kept, count, .sat ν clauses literals values⟩
    | unsat core _ subset refuted =>
      refine ⟨kept, count, .unsat _ (List.nodup_reverse.mpr distinct) ?_ ?_⟩
      · intro l mem
        exact List.mem_reverse.mp mem
      · intro consistent
        refine refuted (consistent.mono fun l mem => ?_)
        exact List.mem_reverse.mpr (subset l mem)

end CoarseSolver

/-- One run shrinks its cores and takes the buckets one by one, the other blames all that it
assumes; they record different cores. -/
theorem Run.solve_agrees_other_cores :
    let f := Formula.twoStages
    let one := Run.solve f .partitioned { minimize := true, rounds := f.roundBound }
      ({} : ExhaustiveSolver) ({} : Hitter)
    let other := Run.solve f .flat { rounds := f.roundBound } ({} : CoarseSolver) ({} : Hitter)
    Problem.twoStages.build = .ok f ∧ f.Proper ∧ Outcome.Agrees one.1 other.1 ∧
      (Log.cores one.2.log).map Core.vars = [[4, 6], [4, 5]] ∧
      (Log.cores other.2.log).map Core.vars = [[4, 5, 6], [4, 6], [4, 5]] := by
  intro f
  dsimp only
  have built : Problem.twoStages.build = .ok f := Problem.build_twoStages
  have proper : f.Proper := Formula.twoStages_proper
  have agrees := Run.solve_agrees ExhaustiveSolver.conforming CoarseSolver.conforming
    (Formula.Made.wellFormed (.inl ⟨_, built⟩)) proper ExhaustiveSolver.holds_nil
    CoarseSolver.holds_nil (by decide) (by decide) .partitioned .flat
    { minimize := true, rounds := f.roundBound } { rounds := f.roundBound } (le_refl _) (le_refl _)
  exact ⟨built, proper, agrees, by cbv, by cbv⟩

end MaxSat

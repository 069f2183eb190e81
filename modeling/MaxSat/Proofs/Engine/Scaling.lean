import MaxSat.Proofs.Engine.Lockstep
import MaxSat.Proofs.Formula.Scaling
import MaxSat.Proofs.HittingSet.Scaling

/-!
# Scaled weights do not change a run

The SAT oracle never sees a weight. The hitter does, and finds the same sets for
weights that all carry one positive factor. So the runs on a formula and on the
scaled one make the same calls one by one, with cores of scaled members, and end
alike; only the cost of the model, which is added up at the end, has the factor.
Together with what building does with scaled declarations, the unit in which
weights are given does not matter.
-/

namespace MaxSat

namespace Formula

variable (q : Weight) (top : TopWeight) (f : Formula)

theorem batches_scale (mode : Mode) :
    (f.scale q top).batches mode = (f.batches mode).map (List.map (SoftClause.scale q)) := by
  cases mode with
  | flat => rfl
  | partitioned =>
    have empty : (f.scale q top).soft.isEmpty = f.soft.isEmpty := List.isEmpty_map
    rw [batches, batches, empty, buckets_scale]
    split
    · rfl
    · rw [List.map_map, List.map_map]
      rfl

theorem lengths_scale (mode : Mode) : ((f.scale q top).batches mode).map List.length =
    (f.batches mode).map List.length := by
  rw [batches_scale, List.map_map]
  apply List.map_congr_left
  intro batch _
  exact List.length_map _

theorem length_batches_scale (mode : Mode) :
    ((f.scale q top).batches mode).length = (f.batches mode).length := by
  rw [batches_scale, List.length_map]

end Formula

def Relaxation.scale (q : Weight) (x : Relaxation) : Relaxation :=
  { x with soft := x.soft.scale q }

/-- Among the calls only recorded cores carry weights. -/
def Event.scale (q : Weight) : Event → Event
  | hit core => hit (core.scale q)
  | reserve n after => reserve n after
  | newVar v => newVar v
  | add c => add c
  | solve assumptions reply => solve assumptions reply
  | get set numCores => get set numCores

def Solution.scale (q : Weight) (s : Solution) : Solution := { s with cost := q * s.cost }

def Outcome.scale (q : Weight) : Outcome → Outcome
  | optimum s => optimum (s.scale q)
  | infeasible => infeasible

theorem Outcome.Alike.eq_scale {q : Weight} {one other : Except SolveError Outcome}
    (alike : Alike (fun sol sol' => sol' = sol.scale q) one other) :
    other = one.map (Outcome.scale q) := by
  cases alike with
  | error e => rfl
  | infeasible => rfl
  | optimum same =>
    rw [same]
    rfl

namespace Run

variable {σ : Type}

/-- The state that a run on the scaled formula is in at the same time. -/
def scale (q : Weight) (r : Run σ Hitter) : Run σ Hitter :=
  { r with
    hitter := r.hitter.scale q
    relaxed := r.relaxed.map (Relaxation.scale q)
    log := r.log.map (Event.scale q) }

variable [SatOracle σ]

theorem seed_scale (q : Weight) (top : TopWeight) (f : Formula) (sat : σ) :
    seed (f.scale q top) sat ({} : Hitter) = (seed f sat {}).scale q := by
  rw [seed_eq, seed_eq, scale, List.map_append, List.map_reverse, List.map_map]
  rfl

theorem relax_scale (q : Weight) (r : Run σ Hitter) (s : SoftClause) :
    (r.scale q).relax (s.scale q) = (r.relax s).scale q := by
  simp [relax, scale, freshVar, addClause, Relaxation.scale, SoftClause.scale, Event.scale]

theorem finish_scale (q : Weight) (top : TopWeight) (f : Formula) (n : Nat) (r : Run σ Hitter) :
    (r.scale q).finish (f.scale q top) n = (r.finish f n).scale q := by
  simp only [finish, scale, Solution.scale, Weight.total_eq_sum, ← List.sum_map_mul_left,
    List.filter_map, List.map_map,
    List.length_map]
  rfl

variable {q : Weight} (positive : 0 < q)
include positive

/-- Each call gets the same answer. -/
theorem parallel_scale :
    Parallel (fun _ => True) (q * ·) fun r r' : Run σ Hitter => r' = r.scale q where
  relaxed := by
    rintro r _ rfl
    rw [scale, List.forall₂_map_right_iff, List.forall₂_same]
    intro x _
    exact ⟨rfl, rfl⟩
  admits _ _ _ := trivial
  getSet := by
    rintro r _ rfl
    have answer : HittingOracle.get (r.scale q).hitter = _ := r.hitter.ask_scale positive
    rw [getSet, getSet, answer]
    exact ⟨rfl, rfl⟩
  ask := by
    rintro r _ rfl ls _
    exact ⟨rfl, rfl, fun _ _ _ _ => trivial⟩
  record := by
    rintro r _ rfl ms
    have recorded : Core.ofMembers (ms.map fun m => (m.1, q * m.2)) = (Core.ofMembers ms).scale q :=
      Core.ofMembers_scale q ms
    have hitter : HittingOracle.hit (r.scale q).hitter ((Core.ofMembers ms).scale q) = _ :=
      r.hitter.hit_scale q (Core.ofMembers ms)
    rw [recorded, record, hitter]
    rfl

theorem lockstep_scale (o : RunOptions) : Lockstep o o fun rest rest' (r r' : Run σ Hitter) =>
    rest' = rest.map (SoftClause.scale q) ∧ r' = r.scale q where
  relax := by
    rintro s s' rest rest' r _ ⟨softs, rfl⟩
    obtain ⟨rfl, rfl⟩ := List.cons.inj softs
    exact ⟨rfl, relax_scale q r s⟩
  round := by
    rintro rest rest' r r' ⟨softs, states⟩
    obtain ⟨step, next⟩ := (parallel_scale positive).round (o := o) states
    exact ⟨step, softs, next⟩

/-- The run on the scaled formula is the scaled run, from the first call to the result. -/
theorem solve_scale (top : TopWeight) (f : Formula) (mode : Mode) (o : RunOptions) (sat : σ) :
    let one := Run.solve f mode o sat ({} : Hitter)
    Run.solve (f.scale q top) mode o sat ({} : Hitter) =
      (one.1.map (Outcome.scale q), one.2.scale q) := by
  intro one
  have seeded := seed_scale q top f sat
  have numVars : SatOracle.numVars (seed (f.scale q top) sat ({} : Hitter)).sat =
      SatOracle.numVars (seed f sat ({} : Hitter)).sat := by
    rw [seeded]
    rfl
  have ended := (lockstep_scale positive o).solve (S := fun sol sol' => sol' = sol.scale q) rfl
    (f.lengths_scale q top mode) numVars ⟨rfl, seeded⟩ <| by
      rintro _ _ r _ ⟨_, rfl⟩
      rw [f.length_batches_scale q top]
      exact finish_scale q top f _ r
  obtain ⟨results, _, _, _, states⟩ := ended
  exact Prod.ext results.eq_scale states

end Run

theorem Formula.solve_scale {q : Weight} (positive : 0 < q) (top : TopWeight) (f : Formula)
    (o : SolveOptions) : (f.scale q top).solve o = (f.solve o).map (Outcome.scale q) := by
  have bound : (f.scale q top).roundBound = f.roundBound := by
    rw [roundBound, roundBound, scale, List.length_map]
  rw [solve, solve, bound]
  cases o.backend with
  | onDemand => exact congrArg Prod.fst (Run.solve_scale positive top f _ _ _)
  | exhaustive => exact congrArg Prod.fst (Run.solve_scale positive top f _ _ _)

/-- Multiplying all declared weights and a finite top by a positive `q` does not change whether
a formula is built, its clauses and buckets, or what solving it ends with, up to the factor on
weights, offset and costs. -/
theorem Problem.scale_keeps_search (p : Problem) {q : Weight} (positive : 0 < q) :
    (∀ fault, (p.scale q).build = .error fault ↔ p.build = .error fault) ∧
      ∀ f, p.build = .ok f → ∃ g, (p.scale q).build = .ok g ∧
        g.hard = f.hard ∧ g.soft = f.soft.map (SoftClause.scale q) ∧ g.ranges = f.ranges ∧
        (∀ i, g.bucket? i = (f.bucket? i).map (List.map (SoftClause.scale q))) ∧
        g.offset = q * f.offset ∧
        ∀ o : SolveOptions, Outcome.Alike
          (fun sol sol' => sol'.model = sol.model ∧ sol'.stats = sol.stats ∧
            sol'.cost = q * sol.cost ∧ sol'.declaredCost g = q * sol.declaredCost f)
          (f.solve o) (g.solve o) := by
  have built := p.build_scale positive
  constructor
  · intro fault
    rw [built]
    cases p.build with
    | error e => rfl
    | ok f => simp [Except.map]
  · intro f ok
    rw [ok] at built
    have grouped : Grouped f.soft := by
      obtain ⟨_, n, _, rfl⟩ := build_eq_ok_iff.mp ok
      exact grouped_mergeSort _
    refine ⟨f.scale q p.top, built, rfl, rfl, f.ranges_scale q p.top,
      Formula.bucket?_scale q p.top grouped, rfl, fun o => ?_⟩
    rw [f.solve_scale positive p.top o]
    cases f.solve o with
    | error e => exact .error e
    | ok outcome =>
      cases outcome with
      | infeasible => exact .infeasible
      | optimum sol => exact .optimum ⟨rfl, rfl, rfl, (mul_add q sol.cost f.offset).symm⟩

/-- Two thirds of all weights. The first clause is hard by its weight, the last one gets a
selector, and the two in between weigh the same. -/
theorem Problem.scale_keeps_search_two_thirds :
    let p : Problem := {
      top := .finite 5
      entries := [.weighted [Lit.pos 1, Lit.pos 2] 5 0, .weighted [Lit.neg 1] (3 / 2) 1,
        .weighted [Lit.neg 2] (3 / 2) 1, .weighted [Lit.neg 1, Lit.neg 2] (-2) 0] }
    let f : Formula := {
      numVars := 3
      inputVars := 2
      hard := [⟨[Lit.pos 1, Lit.pos 2], 0⟩, ⟨[Lit.pos 3, Lit.pos 1], 0⟩,
        ⟨[Lit.pos 3, Lit.pos 2], 0⟩, ⟨[Lit.neg 3, Lit.neg 1, Lit.neg 2], 0⟩]
      soft := [⟨[Lit.neg 3], 2, 0⟩, ⟨[Lit.neg 1], 3 / 2, 1⟩, ⟨[Lit.neg 2], 3 / 2, 1⟩]
      numPartitions := 2
      topWeight := 5
      offset := -2
      comments := [] }
    let o : SolveOptions := { mode := .partitioned, backend := .exhaustive, minimize := true }
    let sol : Solution := {
      cost := 3
      model := [Lit.pos 1, Lit.pos 2, Lit.neg 3]
      stats := ⟨14, 5, 3, 2, 3⟩ }
    (0 : Weight) < 2 / 3 ∧ p.build = .ok f ∧ f.solve o = .ok (.optimum sol) ∧
      ∃ g sol', (p.scale (2 / 3)).build = .ok g ∧ g.hard = f.hard ∧
        g.soft = [⟨[Lit.neg 3], 4 / 3, 0⟩, ⟨[Lit.neg 1], 1, 1⟩, ⟨[Lit.neg 2], 1, 1⟩] ∧
        g.solve o = .ok (.optimum sol') ∧ sol'.model = sol.model ∧ sol'.stats = sol.stats ∧
        sol'.cost = 2 ∧ sol'.declaredCost g = 2 / 3 := by
  intro p f o sol
  have positive : (0 : Weight) < 2 / 3 := by decide +kernel
  have built : p.build = .ok f := by
    unfold f
    cbv
  have solved : f.solve o = .ok (.optimum sol) := by cbv
  obtain ⟨g, builtG, hard, soft, _, _, _, alike⟩ :=
    (Problem.scale_keeps_search p positive).2 f built
  have results := alike o
  rw [solved] at results
  obtain ⟨sol', solved', model, stats, cost, declared⟩ := results.of_optimum
  refine ⟨positive, built, solved, g, sol', builtG, hard, soft.trans ?_, solved', model, stats,
    cost.trans ?_, declared.trans ?_⟩ <;> cbv

end MaxSat

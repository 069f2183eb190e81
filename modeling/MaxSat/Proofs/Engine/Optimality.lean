import MaxSat.Engine.Solve
import MaxSat.Proofs.Engine.Rounds

/-!
# Optimal solutions

The hitting set of a sound run costs no more than any feasible valuation: the
clauses which that falsifies hit every core. A settled run's model falsifies only
clauses of the hitting set, so it meets the bound. Solving therefore ends with an
optimal solution, or with the right answer that there is none; it does not fail
as long as a relaxation variable for each soft clause fits below the largest id.
-/

namespace MaxSat

/-- The total weight of the relaxed clauses that a valuation falsifies. -/
def falsifiedWeight (xs : List Relaxation) (ν : Valuation) : Weight :=
  Weight.total ((falsified xs ν).map fun x => x.soft.weight)

theorem falsifiedWeight_eq_cost {f : Formula} {xs : List Relaxation}
    (entered : xs.map Relaxation.soft = f.soft) (ν : Valuation) :
    falsifiedWeight xs ν = f.cost ν := by
  rw [Formula.cost, ← entered, List.filter_map, List.map_map]
  rfl

namespace Run

variable {σ : Type} [SatOracle σ] {Holds : σ → List Clause → Prop} {f : Formula} {base : Nat}
  {cores : List Core} {r : Run σ Hitter}

theorem Sound.weight_of_mem (sound : r.Sound Holds f base cores) {v : Nat} {w : Weight}
    (known : r.hitter.weight? v = some w) : ∃ x ∈ r.relaxed, x.var = v ∧ x.soft.weight = w := by
  rw [sound.records.weight? v] at known
  obtain ⟨c, mem, member⟩ := Core.mem_of_firstWeight? known
  obtain ⟨x, hx, eq⟩ := sound.explains.members c mem _ member
  cases eq
  exact ⟨x, hx, rfl, rfl⟩

theorem Sound.soft_weight_pos (fits : f.Fits base) (sound : r.Sound Holds f base cores)
    {x : Relaxation} (mem : x ∈ r.relaxed) : 0 < x.soft.weight :=
  fits.wellFormed.positive _ (sound.encodes.soft_mem mem)

theorem Sound.weight?_nonneg (fits : f.Fits base) (sound : r.Sound Holds f base cores) :
    ∀ v w, r.hitter.weight? v = some w → 0 ≤ w := by
  intro v w known
  obtain ⟨x, hx, _, weight⟩ := sound.weight_of_mem known
  exact weight ▸ le_of_lt (sound.soft_weight_pos fits hx)

/-- The hitter weighs a named clause as the formula does. -/
theorem Sound.weight_eq (sound : r.Sound Holds f base cores) {x : Relaxation}
    (mem : x ∈ r.relaxed) (named : x.var ∈ r.hitter.ask.1) :
    r.hitter.weight x.var = x.soft.weight := by
  obtain ⟨c, hc, inCore⟩ := sound.records.ask_members named
  obtain ⟨w, found⟩ := Core.firstWeight?_isSome hc inCore
  obtain ⟨y, hy, var, weight⟩ := sound.weight_of_mem ((sound.records.weight? x.var).trans found)
  rw [Hitter.weight, sound.records.weight? x.var, found, ← sound.encodes.eq_of_var hy mem var]
  exact weight.symm

/-- A clause that no core names weighs nothing in the hitter. -/
theorem Sound.weight_le (fits : f.Fits base) (sound : r.Sound Holds f base cores)
    {x : Relaxation} (mem : x ∈ r.relaxed) : r.hitter.weight x.var ≤ x.soft.weight := by
  rw [Hitter.weight]
  cases known : r.hitter.weight? x.var with
  | none => exact le_of_lt (sound.soft_weight_pos fits mem)
  | some w =>
    obtain ⟨y, hy, var, weight⟩ := sound.weight_of_mem known
    rw [← sound.encodes.eq_of_var hy mem var]
    exact le_of_eq weight.symm

theorem Sound.nodup_falsified (sound : r.Sound Holds f base cores) (ν : Valuation) :
    ((falsified r.relaxed ν).map Relaxation.var).Nodup :=
  sound.encodes.distinct.sublist (List.filter_sublist.map _)

/-- The clauses that a feasible valuation falsifies hit every core. -/
theorem Sound.falsified_hits (sound : r.Sound Holds f base cores) {ν : Valuation}
    (feasible : f.feasible ν = true) :
    ∀ c ∈ cores, ∃ v ∈ c.vars, v ∈ ((falsified r.relaxed ν).map Relaxation.var).toFinset := by
  intro c mem
  obtain ⟨x, hx, named⟩ := sound.explains.blames c mem ν feasible
  exact ⟨x.var, named, List.mem_toFinset.mpr (List.mem_map_of_mem hx)⟩

/-- No feasible valuation pays less than the hitting set costs. -/
theorem Sound.costOf_le (fits : f.Fits base) (sound : r.Sound Holds f base cores)
    {ν : Valuation} (feasible : f.feasible ν = true) :
    r.hitter.costOf r.hitter.ask.1 ≤ falsifiedWeight r.relaxed ν := by
  have least := sound.records.ask_least (sound.weight?_nonneg fits) (sound.falsified_hits feasible)
  rw [List.sum_toFinset _ (sound.nodup_falsified ν), List.map_map] at least
  refine least.trans ?_
  rw [falsifiedWeight, Weight.total_eq_sum]
  exact List.sum_le_sum fun x mem => sound.weight_le fits (mem_falsified.mp mem).1

/-- Nor more, if it falsifies clauses of the hitting set only. -/
theorem Sound.le_costOf (fits : f.Fits base) (sound : r.Sound Holds f base cores)
    {ν : Valuation} (inside : ∀ x ∈ falsified r.relaxed ν, x.var ∈ r.hitter.ask.1) :
    falsifiedWeight r.relaxed ν ≤ r.hitter.costOf r.hitter.ask.1 := by
  have weights : falsifiedWeight r.relaxed ν =
      (((falsified r.relaxed ν).map Relaxation.var).map r.hitter.weight).sum := by
    rw [falsifiedWeight, Weight.total_eq_sum, List.map_map]
    refine congrArg List.sum (List.map_congr_left fun x mem => ?_)
    exact (sound.weight_eq (mem_falsified.mp mem).1 (inside x mem)).symm
  rw [weights, ← List.sum_toFinset _ (sound.nodup_falsified ν), sound.records.costOf_ask_eq]
  refine Finset.sum_le_sum_of_subset_of_nonneg ?_ fun v _ _ =>
    Hitter.weight_nonneg (sound.weight?_nonneg fits) v
  intro v mem
  obtain ⟨x, hx, rfl⟩ := List.mem_map.mp (List.mem_toFinset.mp mem)
  exact List.mem_toFinset.mpr (inside x hx)

theorem foldl_addClause (conforming : Conforming σ Holds) {hard : List HardClause}
    {cs : List Clause} (holds : Holds r.sat cs)
    (inUse : ∀ h ∈ hard, InUse (SatOracle.numVars r.sat) h.clause) :
    let last := hard.foldl (fun r h => r.addClause h.clause) r
    Holds last.sat (cs ++ hard.map HardClause.clause) ∧
      SatOracle.numVars last.sat = SatOracle.numVars r.sat ∧
      last.relaxed = r.relaxed ∧ last.hitter = r.hitter := by
  induction hard generalizing r cs with
  | nil => exact ⟨by simpa using holds, rfl, rfl, rfl⟩
  | cons h hard ih =>
    obtain ⟨stored, same⟩ := conforming.addClause holds (inUse h List.mem_cons_self)
    have next : SatOracle.numVars (r.addClause h.clause).sat = SatOracle.numVars r.sat := same
    obtain ⟨all, count, relaxed, hitter⟩ := ih (r := r.addClause h.clause) stored fun k mem =>
      next ▸ inUse k (List.mem_cons_of_mem h mem)
    exact ⟨by simpa using all, count.trans next, relaxed, hitter⟩

theorem seed_sound (conforming : Conforming σ Holds) (wellFormed : f.WellFormed)
    (proper : f.Proper) {sat : σ} (holds : Holds sat []) :
    (seed f sat ({} : Hitter)).Sound Holds f (max (SatOracle.numVars sat) f.numVars) [] ∧
      (seed f sat ({} : Hitter)).relaxed = [] := by
  obtain ⟨reserved, count⟩ := conforming.reserve holds f.numVars
  have inUse : ∀ h ∈ f.hard,
      InUse (SatOracle.numVars (SatOracle.reserve sat f.numVars)) h.clause := by
    intro h mem l hl
    refine ⟨proper.hard h mem l hl, ?_⟩
    rw [count]
    exact Nat.le_trans (wellFormed.hardIds h mem l hl) (Nat.le_max_right _ _)
  obtain ⟨stored, same, none_, fresh⟩ :=
    foldl_addClause (r := reserve { sat, hitter := ({} : Hitter) } f.numVars) conforming reserved
      inUse
  have relaxed : (seed f sat ({} : Hitter)).relaxed = [] := none_
  have hitter : (seed f sat ({} : Hitter)).hitter = {} := fresh
  refine ⟨⟨⟨?_, ?_, ?_, ?_⟩, ?_, .nil f _⟩, relaxed⟩
  · rw [relaxed, Formula.store, List.map_nil, List.append_nil]
    exact stored
  · rw [relaxed]
    exact same.trans count
  · rw [relaxed]
    rfl
  · rw [relaxed]
    exact List.nil_prefix
  · rw [hitter]
    exact Hitter.records_nil

theorem vars_modelUpTo (r : Run σ Hitter) (n : Nat) :
    (r.modelUpTo n).map Lit.var = List.range' 1 n := by
  simp [modelUpTo, Function.comp_def]

/-- Read back by index, the listed model gives the oracle's values. -/
theorem valuation_modelUpTo {ν : Valuation} {n : Nat}
    (values : ∀ v, 1 ≤ v → v ≤ n → SatOracle.value r.sat v = some (ν v)) {v : Nat} (one : 1 ≤ v)
    (le : v ≤ n) : valuation (false :: (r.modelUpTo n).map Lit.positive).toArray v = ν v := by
  obtain ⟨u, rfl⟩ := Nat.exists_eq_add_of_le' one
  have inside : u < n := le
  have value := values (u + 1) one le
  simp [valuation, Array.getD_eq_getD_getElem?, modelUpTo, inside,
    Nat.add_comm 1 u, value]

end Run

/-- Valuations with the same values on the variables of a formula are alike for it. -/
theorem Formula.feasible_congr {f : Formula} (wellFormed : f.WellFormed) (proper : f.Proper)
    {μ ν : Valuation} (same : ∀ v, 1 ≤ v → v ≤ f.numVars → μ v = ν v) :
    f.feasible μ = f.feasible ν := by
  rw [Bool.eq_iff_iff, feasible_iff, feasible_iff]
  apply forall₂_congr
  intro h mem
  rw [Clause.holds_congr fun l hl =>
    same l.var (proper.hard h mem l hl) (wellFormed.hardIds h mem l hl)]

theorem Formula.cost_congr {f : Formula} (wellFormed : f.WellFormed) (proper : f.Proper)
    {μ ν : Valuation} (same : ∀ v, 1 ≤ v → v ≤ f.numVars → μ v = ν v) :
    f.cost μ = f.cost ν := by
  rw [cost_eq_sum, cost_eq_sum]
  refine congrArg List.sum (List.map_congr_left fun s mem => ?_)
  rw [SoftClause.cost, SoftClause.cost, Clause.holds_congr fun l hl =>
    same l.var (proper.soft s mem l hl) (wellFormed.softIds s mem l hl)]

/-- The model gives a value to each variable in order, satisfies the hard clauses and falsifies
soft clauses of the stated cost, and no feasible valuation has a smaller cost. -/
structure Solution.Optimal (f : Formula) (sol : Solution) : Prop where
  vars : sol.model.map Lit.var = List.range' 1 f.numVars
  literals : ∀ l ∈ sol.model, l.holds sol.valuation = true
  feasible : f.feasible sol.valuation = true
  cost : sol.cost = f.cost sol.valuation
  least : ∀ ν, f.feasible ν = true → sol.cost ≤ f.cost ν

/-- The right results of solving a formula: an optimal solution if there is any. -/
inductive Outcome.Right (f : Formula) : Except SolveError Outcome → Prop
  | infeasible (none_ : ∀ ν, f.feasible ν = false) : Right f (.ok .infeasible)
  | optimum {sol : Solution} (optimal : sol.Optimal f) : Right f (.ok (.optimum sol))

namespace Run

variable {σ : Type} [SatOracle σ] {Holds : σ → List Clause → Prop} {f : Formula} {base : Nat}

theorem finish_optimal (fits : f.Fits base) {r : Run σ Hitter} {cores : List Core}
    (sound : r.Sound Holds f base cores) (entered : r.relaxed.map Relaxation.soft = f.soft)
    (settled : r.Settled f) (numStages : Nat) : (r.finish f numStages).Optimal f := by
  obtain ⟨ν, feasible, values, inside⟩ := settled
  let sol := r.finish f numStages
  have same : ∀ v, 1 ≤ v → v ≤ f.numVars → sol.valuation v = ν v :=
    fun v one le => valuation_modelUpTo values one le
  have cost : sol.cost = f.cost sol.valuation := falsifiedWeight_eq_cost entered sol.valuation
  have costs : f.cost sol.valuation = f.cost ν :=
    Formula.cost_congr fits.wellFormed fits.proper same
  refine ⟨r.vars_modelUpTo f.numVars, ?_, ?_, cost, fun μ feasibleμ => ?_⟩
  · intro l mem
    obtain ⟨v, inRange, rfl⟩ := List.mem_map.mp mem
    have one : 1 ≤ v ∧ v < 1 + f.numVars := List.mem_range'_1.mp inRange
    have le : v ≤ f.numVars := by omega
    have value : sol.valuation v = ν v := same v one.1 le
    simp only [Lit.holds, values v one.1 le, Option.getD_some, beq_iff_eq]
    exact value
  · rw [← feasible]
    exact Formula.feasible_congr fits.wellFormed fits.proper same
  · calc
      sol.cost = falsifiedWeight r.relaxed ν := by
        rw [cost, costs, falsifiedWeight_eq_cost entered]
      _ ≤ r.hitter.costOf r.hitter.ask.1 := sound.le_costOf fits inside
      _ ≤ falsifiedWeight r.relaxed μ := sound.costOf_le fits feasibleμ
      _ = f.cost μ := falsifiedWeight_eq_cost entered μ

end Run

theorem Formula.flatten_batches (f : Formula) (mode : Mode) :
    (f.batches mode).flatten = f.soft := by
  cases mode with
  | flat => simp [batches]
  | partitioned =>
    rw [batches]
    split
    · rename_i none_
      simpa using none_.symm
    · exact flatten_buckets f.soft

theorem Formula.batches_ne_nil (f : Formula) (mode : Mode) : f.batches mode ≠ [] := by
  cases mode with
  | flat => simp [batches]
  | partitioned =>
    rw [batches]
    split
    · simp
    · rename_i some_
      intro none_
      have empty := flatten_buckets f.soft
      rw [buckets] at none_
      rw [none_] at empty
      simp [← empty] at some_

/-- On any conforming oracle, in either mode and with or without minimization, the result is
right. -/
theorem Run.solve_right {σ : Type} [SatOracle σ] {Holds : σ → List Clause → Prop} {f : Formula}
    (conforming : Conforming σ Holds) (wellFormed : f.WellFormed) (proper : f.Proper) {sat : σ}
    (holds : Holds sat [])
    (room : max (SatOracle.numVars sat) f.numVars + f.soft.length ≤ maxVar) (mode : Mode)
    {o : RunOptions} (enough : 2 ^ f.soft.length ≤ o.rounds) :
    Outcome.Right f (Run.solve f mode o sat ({} : Hitter)).1 := by
  obtain ⟨sound, relaxed⟩ := seed_sound conforming wellFormed proper holds
  have fits : f.Fits (max (SatOracle.numVars sat) f.numVars) :=
    ⟨wellFormed, proper, Nat.le_max_right _ _, room⟩
  have rest : (seed f sat ({} : Hitter)).relaxed.map Relaxation.soft ++ (f.batches mode).flatten =
      f.soft := by
    rw [relaxed, f.flatten_batches mode]
    rfl
  have ended := stages_concludes conforming fits enough sound rest fun none_ =>
    absurd none_ (f.batches_ne_nil mode)
  have last : ¬ maxVar < SatOracle.numVars (seed f sat ({} : Hitter)).sat + f.soft.length := by
    rw [sound.encodes.numVars, relaxed, List.length_nil]
    omega
  rw [Run.solve]
  dsimp only
  rw [if_neg last]
  generalize (seed f sat ({} : Hitter)).stages o (f.batches mode) = result at ended
  cases ended with
  | settled cores sound' entered settled =>
    exact .optimum (finish_optimal fits sound' entered settled _)
  | infeasible none_ => exact .infeasible none_

/-- Solving a formula with the exhaustive solver never fails. It finds the formula infeasible
exactly if no valuation is feasible and gives an optimal solution otherwise. -/
theorem Formula.solve_exhaustive_is_optimal {f : Formula} (made : f.Made) (proper : f.Proper)
    (room : f.numVars + f.soft.length ≤ maxVar) (mode : Mode) (minimize : Bool) :
    let result := f.solve { mode, backend := .exhaustive, minimize }
    (result = .ok .infeasible ↔ ∀ ν, f.feasible ν = false) ∧
      ((∃ ν, f.feasible ν = true) → ∃ sol, result = .ok (.optimum sol) ∧ sol.Optimal f) := by
  intro result
  have right : Outcome.Right f result :=
    Run.solve_right ExhaustiveSolver.conforming made.wellFormed proper ExhaustiveSolver.holds_nil
      ((congrArg (· + f.soft.length) (Nat.zero_max f.numVars)).trans_le room) mode (le_refl _)
  clear_value result
  cases right with
  | infeasible none_ =>
    refine ⟨⟨fun _ => none_, fun _ => rfl⟩, ?_⟩
    rintro ⟨ν, feasible⟩
    simp [none_ ν] at feasible
  | optimum optimal =>
    refine ⟨⟨nofun, fun none_ => ?_⟩, fun _ => ⟨_, rfl, optimal⟩⟩
    have feasible := optimal.feasible
    simp [none_] at feasible

/-- A clause for the first stage that shares a core with each of two clauses for the second. -/
def Problem.twoStages : Problem where
  entries := [.hard [Lit.pos 1, Lit.pos 2] 0, .hard [Lit.pos 1, Lit.pos 3] 0,
    .weighted [Lit.neg 2] 1 1, .weighted [Lit.neg 3] 1 1, .weighted [Lit.neg 1] (3 / 2) 0]

def Formula.twoStages : Formula where
  numVars := 3
  inputVars := 3
  hard := [⟨[Lit.pos 1, Lit.pos 2], 0⟩, ⟨[Lit.pos 1, Lit.pos 3], 0⟩]
  soft := [⟨[Lit.neg 1], 3 / 2, 0⟩, ⟨[Lit.neg 2], 1, 1⟩, ⟨[Lit.neg 3], 1, 1⟩]
  numPartitions := 2
  topWeight := 9 / 2
  offset := 0
  comments := []

theorem Problem.build_twoStages : Problem.twoStages.build = .ok Formula.twoStages := by cbv

theorem Formula.twoStages_proper : Formula.twoStages.Proper := ⟨by decide, by decide⟩

/-- The clause of the first stage is cheaper to give up than both of the second. -/
theorem Formula.solve_exhaustive_is_optimal_two_stages :
    let f := Formula.twoStages
    Problem.twoStages.build = .ok f ∧ f.Proper ∧ f.numVars + f.soft.length ≤ maxVar ∧
      ∃ sol, f.solve { mode := .partitioned, backend := .exhaustive, minimize := true } =
        .ok (.optimum sol) ∧ sol.Optimal f ∧ sol.cost = 3 / 2 := by
  intro f
  have room : f.numVars + f.soft.length ≤ maxVar := by decide
  have feasible : f.feasible (fun _ => true) = true := by decide
  obtain ⟨sol, solved, optimal⟩ :=
    (f.solve_exhaustive_is_optimal (.inl ⟨_, Problem.build_twoStages⟩) twoStages_proper room
      .partitioned true).2 ⟨_, feasible⟩
  refine ⟨Problem.build_twoStages, twoStages_proper, room, sol, solved, optimal, ?_⟩
  have computed : f.solve { mode := .partitioned, backend := .exhaustive, minimize := true } =
      .ok (.optimum {
        cost := 3 / 2
        model := [Lit.pos 1, Lit.neg 2, Lit.neg 3]
        stats := ⟨10, 4, 2, 2, 3⟩ }) := by cbv
  rw [computed] at solved
  cases solved
  rfl

end MaxSat

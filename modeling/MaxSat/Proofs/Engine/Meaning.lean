import MaxSat.Proofs.Engine.Lockstep

/-!
# Results depend on the meaning of a formula

Clauses may be written in many ways: hard clauses in another order, again, or
with others that follow from them; literals of a soft clause in another order or
more than once. The search of the exhaustive solver takes another way through
each of them, but finds the same least model, and deletion finds the same core.
So the runs on two such formulas stay in lockstep, and not only their costs are
equal but also their models and the calls they count.
-/

namespace MaxSat

/-- The same weight, and the same literals in whichever order and however often. -/
structure SoftClause.SameMeaning (s t : SoftClause) : Prop where
  weight : t.weight = s.weight
  literals : ∀ l, l ∈ t.clause ↔ l ∈ s.clause

/-- The same variables and buckets, soft clauses that mean the same one by one, and hard clauses
that are satisfied by the same valuations. -/
structure Formula.SameMeaning (f g : Formula) : Prop where
  numVars : g.numVars = f.numVars
  ranges : g.ranges = f.ranges
  soft : List.Forall₂ SoftClause.SameMeaning f.soft g.soft
  hard : ∀ ν, g.feasible ν = f.feasible ν

theorem SoftClause.SameMeaning.holds {s t : SoftClause} (same : s.SameMeaning t) (ν : Valuation) :
    Clause.holds ν t.clause = Clause.holds ν s.clause := by
  rw [Bool.eq_iff_iff, Clause.holds_iff, Clause.holds_iff]
  simp only [same.literals]

theorem lengths_of_rangesFrom {start : Nat} {bs cs : List Bucket}
    (same : rangesFrom start cs = rangesFrom start bs) :
    cs.map (fun b => b.clauses.length) = bs.map fun b => b.clauses.length := by
  induction bs generalizing start cs with
  | nil =>
    cases cs with
    | nil => rfl
    | cons c cs => cases same
  | cons b bs ih =>
    cases cs with
    | nil => cases same
    | cons c cs =>
      obtain ⟨first, rest⟩ := List.cons.inj same
      have stop : start + c.clauses.length = start + b.clauses.length :=
        congrArg BucketRange.stop first
      rw [stop] at rest
      rw [List.map_cons, List.map_cons, ih rest, Nat.add_left_cancel stop]

theorem Formula.SameMeaning.lengths {f g : Formula} (same : f.SameMeaning g) (mode : Mode) :
    (g.batches mode).map List.length = (f.batches mode).map List.length := by
  have count := same.soft.length_eq
  cases mode with
  | flat => simp [batches, count]
  | partitioned =>
    have empty : g.soft.isEmpty = f.soft.isEmpty := by
      rw [Bool.eq_iff_iff, List.isEmpty_iff_length_eq_zero, List.isEmpty_iff_length_eq_zero, count]
    rw [batches, batches, empty]
    split
    · rfl
    · rw [List.map_map, List.map_map]
      exact lengths_of_rangesFrom same.ranges

/-- The same variable relaxes soft clauses of the same meaning. -/
def Relaxation.Twin (x x' : Relaxation) : Prop := x'.var = x.var ∧ x.soft.SameMeaning x'.soft

section Relaxations

variable {xs xs' : List Relaxation} (twins : List.Forall₂ Relaxation.Twin xs xs')
include twins

theorem relaxations_hold_congr (ν : Valuation) :
    (∀ x ∈ xs', Clause.holds ν x.clause = true) ↔ ∀ x ∈ xs, Clause.holds ν x.clause = true := by
  induction twins with
  | nil => rfl
  | @cons x x' xs xs' first rest ih =>
    have same : Clause.holds ν x'.clause = Clause.holds ν x.clause := by
      rw [Relaxation.clause, Relaxation.clause, Clause.holds_append, Clause.holds_append,
        first.2.holds, first.1]
    rw [List.forall_mem_cons, List.forall_mem_cons, same, ih]

theorem falsified_weights_congr (ν : Valuation) :
    (falsified xs' ν).map (fun x => x.soft.weight) =
      (falsified xs ν).map fun x => x.soft.weight := by
  induction twins with
  | nil => rfl
  | @cons x x' xs xs' first rest ih =>
    rw [falsified, falsified, List.filter_cons, List.filter_cons, first.2.holds]
    cases Clause.holds ν x.soft.clause with
    | true => exact ih
    | false =>
      simp only [Bool.not_false, if_true, List.map_cons, first.2.weight]
      exact congrArg _ ih

end Relaxations

namespace Run

/-- The states of the two runs when `rest` and `rest'` have still to enter. Only the clauses
differ, those that the solvers hold and those that are relaxed. -/
structure Twins (f g : Formula) (rest rest' : List SoftClause)
    (r r' : Run ExhaustiveSolver Hitter) : Prop where
  one : r.Awaits f f.numVars rest
  other : r'.Awaits g f.numVars rest'
  softs : List.Forall₂ SoftClause.SameMeaning rest rest'
  relaxed : List.Forall₂ Relaxation.Twin r.relaxed r'.relaxed
  model : r'.sat.model = r.sat.model
  tally : r'.sat.tally = r.sat.tally
  hitter : r'.hitter = r.hitter
  hsCalls : r'.hsCalls = r.hsCalls
  cores : r'.cores = r.cores

namespace Twins

variable {f g : Formula} (same : f.SameMeaning g) {rest rest' : List SoftClause}
  {r r' : Run ExhaustiveSolver Hitter} (twins : Twins f g rest rest' r r')
include same twins

theorem equivalent : r.sat.cnf.Equivalent r'.sat.cnf where
  numVars := by
    have one : r.sat.cnf.numVars = f.numVars + r.relaxed.length := twins.one.encodes.numVars
    have other : r'.sat.cnf.numVars = f.numVars + r'.relaxed.length := twins.other.encodes.numVars
    rw [one, other, twins.relaxed.length_eq]
  models ν := by
    have hard := same.hard ν
    rw [Bool.eq_iff_iff, Formula.feasible_iff, Formula.feasible_iff] at hard
    rw [Bool.eq_iff_iff, Cnf.holds_iff, Cnf.holds_iff, twins.one.encodes.holds.1,
      twins.other.encodes.holds.1, Formula.store, Formula.store, List.forall_mem_append,
      List.forall_mem_append, List.forall_mem_map, List.forall_mem_map, List.forall_mem_map,
      List.forall_mem_map, hard, relaxations_hold_congr twins.relaxed]

theorem finish (numStages : Nat) : r'.finish g numStages = r.finish f numStages := by
  have value : SatOracle.value r'.sat = SatOracle.value r.sat := by
    funext v
    exact congrArg (fun m => m.bind fun m => m[v]?) twins.model
  have model : r'.modelUpTo g.numVars = r.modelUpTo f.numVars := by
    rw [modelUpTo, modelUpTo, value, same.numVars]
  have calls : (SatOracle.tally r'.sat).calls = (SatOracle.tally r.sat).calls :=
    congrArg Tally.calls twins.tally
  have weights := falsified_weights_congr twins.relaxed
  simp only [falsified] at weights
  simp only [Run.finish, model, weights, calls, twins.hsCalls, twins.cores,
    twins.relaxed.length_eq]

end Twins

section Pair

variable {f g : Formula} (same : f.SameMeaning g)
include same

theorem parallel_twins (rest rest' : List SoftClause) :
    Parallel (fun l => 1 ≤ l.var) id (Twins f g rest rest') where
  relaxed twins := twins.relaxed.imp fun x x' twin => ⟨twin.1, twin.2.weight⟩
  admits twins x mem := twins.one.positive mem
  getSet {r r'} twins := by
    have set : r'.getSet.1 = r.getSet.1 :=
      congrArg (fun h => (HittingOracle.get h).1) twins.hitter
    refine ⟨set, { twins with
      one := twins.one.getSet, other := twins.other.getSet, hitter := ?_, hsCalls := ?_ }⟩
    · exact congrArg (fun h => (HittingOracle.get h).2) twins.hitter
    · exact congrArg (· + 1) twins.hsCalls
  ask {r r'} twins ls positive := by
    have proper := twins.one.encodes.holds.2
    obtain ⟨reply, model, tally⟩ := ExhaustiveSolver.solve_congr (twins.equivalent same) proper
      twins.other.encodes.holds.2 twins.tally positive
    refine ⟨reply, { twins with
      one := twins.one.ask ls, other := twins.other.ask ls, model, tally }, fun core found => ?_⟩
    rcases ExhaustiveSolver.solve_cases proper positive with
      ⟨m, _, answer⟩ | ⟨part, sublist, _, answer⟩
    · have none_ : (r.ask ls).1 = .sat := congrArg Prod.fst answer
      rw [none_] at found
      cases found
    · have some_ : (r.ask ls).1 = .unsat (some part) := congrArg Prod.fst answer
      rw [some_] at found
      cases found
      exact fun l mem => positive l (sublist.mem mem)
  record {r r'} twins ms := by
    simp only [id, List.map_id']
    refine { twins with
      one := twins.one.record _, other := twins.other.record _, hitter := ?_, cores := ?_ }
    · exact congrArg (HittingOracle.hit · (Core.ofMembers ms)) twins.hitter
    · exact congrArg (· + 1) twins.cores

theorem seed_twins (one : (seed f ({} : ExhaustiveSolver) ({} : Hitter)).Awaits f f.numVars f.soft)
    (other : (seed g ({} : ExhaustiveSolver) ({} : Hitter)).Awaits g f.numVars g.soft) :
    Twins f g f.soft g.soft (seed f ({} : ExhaustiveSolver) ({} : Hitter))
      (seed g ({} : ExhaustiveSolver) ({} : Hitter)) := by
  obtain ⟨model, tally, hsCalls, cores⟩ := seed_unanswered f ({} : Hitter)
  obtain ⟨model', tally', hsCalls', cores'⟩ := seed_unanswered g ({} : Hitter)
  refine ⟨one, other, same.soft, ?_, model'.trans model.symm, tally'.trans tally.symm, ?_,
    hsCalls'.trans hsCalls.symm, cores'.trans cores.symm⟩
  · rw [one.start.1, other.start.1]
    exact .nil
  · rw [seed_eq, seed_eq]

variable (fits : f.Fits f.numVars) (fits' : g.Fits f.numVars)
include fits fits'

omit same in
theorem Twins.relax {s s' : SoftClause} {rest rest' : List SoftClause}
    {r r' : Run ExhaustiveSolver Hitter} (twins : Twins f g (s :: rest) (s' :: rest') r r') :
    Twins f g rest rest' (r.relax s) (r'.relax s') := by
  obtain ⟨first, softs⟩ := List.forall₂_cons.mp twins.softs
  have next : (SatOracle.freshVar r'.sat).1 = (SatOracle.freshVar r.sat).1 := by
    have one : r.sat.cnf.numVars = f.numVars + r.relaxed.length := twins.one.encodes.numVars
    have other : r'.sat.cnf.numVars = f.numVars + r'.relaxed.length := twins.other.encodes.numVars
    change min (r'.sat.cnf.numVars + 1) lastId = min (r.sat.cnf.numVars + 1) lastId
    rw [one, other, twins.relaxed.length_eq]
  refine { twins with
    one := twins.one.relax fits, other := twins.other.relax fits', softs, relaxed := ?_ }
  exact List.rel_append twins.relaxed (.cons ⟨next, first⟩ .nil)

theorem lockstep_twins (o : RunOptions) : Lockstep o o (Twins f g) where
  relax twins := twins.relax fits fits'
  round twins := (parallel_twins same _ _).round twins

end Pair

end Run

/-- With the exhaustive solver, formulas of the same meaning have the same result: the same
error, no solution for both, or the same cost, model and counts. -/
theorem Formula.solve_exhaustive_by_meaning {f g : Formula} (made : f.Made) (made' : g.Made)
    (proper : f.Proper) (proper' : g.Proper) (same : f.SameMeaning g) (mode : Mode)
    (minimize : Bool) :
    g.solve { mode, backend := .exhaustive, minimize } =
      f.solve { mode, backend := .exhaustive, minimize } := by
  have bound : g.roundBound = f.roundBound := by
    rw [roundBound, roundBound, same.soft.length_eq]
  have one := Run.seed_awaits made.wellFormed proper
  have other := Run.seed_awaits made'.wellFormed proper'
  rw [same.numVars] at other
  change (Run.solve g mode { minimize, rounds := g.roundBound } ({} : ExhaustiveSolver)
    ({} : Hitter)).1 = (Run.solve f mode { minimize, rounds := f.roundBound }
      ({} : ExhaustiveSolver) ({} : Hitter)).1
  rw [bound]
  have numVars := other.start.2.trans one.start.2.symm
  by_cases room : f.numVars + f.soft.length ≤ maxVar
  · have fits : f.Fits f.numVars := ⟨made.wellFormed, proper, Nat.le_refl _, room⟩
    have fits' : g.Fits f.numVars := by
      refine ⟨made'.wellFormed, proper', Nat.le_of_eq same.numVars, ?_⟩
      rwa [← same.soft.length_eq]
    have lockstep := Run.lockstep_twins same fits fits' { minimize, rounds := f.roundBound }
    have numStages : (g.batches mode).length = (f.batches mode).length := by
      simpa using congrArg List.length (same.lengths mode)
    have ended := lockstep.solve (S := Eq) rfl (same.lengths mode) numVars
      (Run.seed_twins same one other) fun twins => by rw [numStages, twins.finish same]
    exact ended.1.eq.symm
  · -- both are refused before anything is asked for
    have full : maxVar < f.numVars + f.soft.length := Nat.lt_of_not_le room
    have full' : maxVar < g.numVars + g.soft.length := by
      rwa [same.numVars, ← same.soft.length_eq]
    rw [Run.solve_of_full made.wellFormed proper full,
      Run.solve_of_full made'.wellFormed proper' full', same.numVars, same.soft.length_eq]

/-- The hard clauses come in another order, one of them with a literal twice, beside one that
follows from the others. Two soft clauses repeat a literal. -/
theorem Formula.solve_exhaustive_by_meaning_rewritten :
    let p : Problem := {
      entries := [.hard [Lit.pos 1, Lit.pos 2] 0, .hard [Lit.pos 1, Lit.pos 3] 0,
        .weighted [Lit.neg 1] (3 / 2) 0, .weighted [Lit.neg 2] 1 1,
        .weighted [Lit.neg 3, Lit.pos 2] 1 1] }
    let q : Problem := {
      entries := [.hard [Lit.pos 3, Lit.pos 1, Lit.pos 1] 0,
        .hard [Lit.pos 1, Lit.pos 2, Lit.pos 3] 0, .hard [Lit.pos 2, Lit.pos 1] 0,
        .weighted [Lit.neg 1, Lit.neg 1] (3 / 2) 0, .weighted [Lit.neg 2] 1 1,
        .weighted [Lit.pos 2, Lit.neg 3, Lit.pos 2] 1 1] }
    let f : Formula := {
      numVars := 3
      inputVars := 3
      hard := [⟨[Lit.pos 1, Lit.pos 2], 0⟩, ⟨[Lit.pos 1, Lit.pos 3], 0⟩]
      soft := [⟨[Lit.neg 1], 3 / 2, 0⟩, ⟨[Lit.neg 2], 1, 1⟩, ⟨[Lit.neg 3, Lit.pos 2], 1, 1⟩]
      numPartitions := 2
      topWeight := 9 / 2
      offset := 0
      comments := [] }
    let g : Formula := { f with
      hard := [⟨[Lit.pos 3, Lit.pos 1, Lit.pos 1], 0⟩, ⟨[Lit.pos 1, Lit.pos 2, Lit.pos 3], 0⟩,
        ⟨[Lit.pos 2, Lit.pos 1], 0⟩]
      soft := [⟨[Lit.neg 1, Lit.neg 1], 3 / 2, 0⟩, ⟨[Lit.neg 2], 1, 1⟩,
        ⟨[Lit.pos 2, Lit.neg 3, Lit.pos 2], 1, 1⟩] }
    p.build = .ok f ∧ q.build = .ok g ∧ f.SameMeaning g ∧
      g.solve { mode := .partitioned, backend := .exhaustive, minimize := true } =
        .ok (.optimum {
          cost := 1
          model := [Lit.neg 1, Lit.pos 2, Lit.pos 3]
          stats := ⟨6, 3, 1, 2, 3⟩ }) := by
  intro p q f g
  have builtF : p.build = .ok f := by
    unfold f
    cbv
  have builtG : q.build = .ok g := by
    unfold g f
    cbv
  have properF : f.Proper := ⟨by decide, by decide⟩
  have properG : g.Proper := ⟨by decide, by decide⟩
  have soft : List.Forall₂ SoftClause.SameMeaning f.soft g.soft := by
    refine .cons ⟨rfl, fun l => ?_⟩ (.cons ⟨rfl, fun l => Iff.rfl⟩ (.cons ⟨rfl, fun l => ?_⟩ .nil))
    · simp
    · simp [or_left_comm]
  have hard (ν : Valuation) : g.feasible ν = f.feasible ν := by
    simp only [Formula.feasible, Clause.holds, Lit.holds, Lit.pos, List.all_cons, List.all_nil,
      List.any_cons, List.any_nil, f, g]
    generalize ν 1 = a, ν 2 = b, ν 3 = c
    revert a b c
    decide
  have same : f.SameMeaning g := ⟨rfl, by decide, soft, hard⟩
  have eq := Formula.solve_exhaustive_by_meaning (.inl ⟨p, builtF⟩) (.inl ⟨q, builtG⟩) properF
    properG same .partitioned true
  refine ⟨builtF, builtG, same, eq.trans ?_⟩
  cbv

end MaxSat

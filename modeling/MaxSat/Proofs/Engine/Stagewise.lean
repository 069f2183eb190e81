import Mathlib.Order.Bounds.Basic
import MaxSat.Proofs.Engine.Replay

/-!
# Stage by stage

The invariant of a run does not depend on soft clauses that have not entered.
So the end of a stage is the end of a run on the formula with the clauses that
have: the hitting set costs what the cheapest valuation pays for them, and, as
all weights are positive, it names exactly the clauses that the model of the SAT
oracle falsifies. Until then its cost only grows, since more cores are to be hit
and each was rightly recorded.
-/

namespace MaxSat

namespace Log

/-- What the hitting sets cost, in order, each by the weights recorded before it. -/
def costs : List Event → List Weight
  | [] => []
  | .get set _ :: log => costs log ++ [(hitter ({} : Hitter) log).costOf set]
  | _ :: log => costs log

theorem costs_of_isSetup {log : List Event} (setup : ∀ e ∈ log, e.IsSetup) : costs log = [] := by
  induction log with
  | nil => rfl
  | cons e log ih =>
    obtain ⟨head, tail⟩ := List.forall_mem_cons.mp setup
    cases e with
    | reserve n after => exact ih tail
    | add c => exact ih tail
    | _ => cases head

/-- Costs do not fall, and none exceeds what the next hitting set will cost. -/
theorem costs_ascending {log : List Event} (replayed : Replayed ({} : Hitter) log)
    (nonempty : ∀ c ∈ cores log, c.vars ≠ [])
    (nonneg : ∀ c ∈ cores log, ∀ m ∈ c.members, 0 ≤ m.2) :
    (costs log).Pairwise (· ≤ ·) ∧
      ∀ w ∈ costs log, w ≤ (hitter ({} : Hitter) log).costOf (hitter ({} : Hitter) log).ask.1 := by
  induction log with
  | nil => exact ⟨.nil, nofun⟩
  | cons e log ih =>
    rw [cores_cons] at nonempty nonneg
    have nonempty' : ∀ c ∈ cores log, c.vars ≠ [] :=
      fun c mem => nonempty c (List.mem_append_left _ mem)
    have nonneg' : ∀ c ∈ cores log, ∀ m ∈ c.members, 0 ≤ m.2 :=
      fun c mem => nonneg c (List.mem_append_left _ mem)
    cases e with
    | get set n =>
      obtain ⟨answer, replayed⟩ := replayed
      obtain ⟨ascending, bound⟩ := ih replayed nonempty' nonneg'
      have same : (hitter ({} : Hitter) (.get set n :: log)).costOf
          (hitter ({} : Hitter) (.get set n :: log)).ask.1 =
          (hitter ({} : Hitter) log).costOf set := by
        rw [answer]
        exact (Hitter.costOf_ask _ _).trans (congrArg _ (Hitter.ask_ask _))
      have top : ∀ w ∈ costs log, w ≤ (hitter ({} : Hitter) log).costOf set := by
        rw [answer]
        exact bound
      rw [same]
      constructor
      · refine List.pairwise_append.mpr ⟨ascending, List.pairwise_singleton _ _, ?_⟩
        intro w mem u last
        exact List.mem_singleton.mp last ▸ top w mem
      · intro w mem
        rcases List.mem_append.mp mem with mem | last
        · exact top w mem
        · exact le_of_eq (List.mem_singleton.mp last)
    | hit c =>
      -- no set was asked for, but the next one may cost more
      obtain ⟨ascending, bound⟩ := ih replayed nonempty' nonneg'
      have grows := (hitter_records nonempty').costOf_ask_le_hit
        (nonempty c (by simp [Event.core?])) nonneg
      exact ⟨ascending, fun w mem => (bound w mem).trans grows⟩
    | _ => exact ih replayed nonempty' nonneg'

end Log

/-- The formula with the given soft clauses only. -/
def Formula.only (f : Formula) (softs : List SoftClause) : Formula := { f with soft := softs }

theorem Formula.Fits.only {f : Formula} {base : Nat} (fits : f.Fits base)
    {softs : List SoftClause} (part : softs <+: f.soft) : (f.only softs).Fits base where
  wellFormed := {
    hardIds := fits.wellFormed.hardIds
    softIds := fun s mem => fits.wellFormed.softIds s (part.subset mem)
    positive := fun s mem => fits.wellFormed.positive s (part.subset mem)
    inputs := fits.wellFormed.inputs
    room := fits.wellFormed.room }
  proper := ⟨fits.proper.hard, fun s mem => fits.proper.soft s (part.subset mem)⟩
  above := fits.above
  room := Nat.le_trans (Nat.add_le_add_left part.length_le base) fits.room

theorem Formula.flatten_of_batches {f : Formula} {mode : Mode} {done : List (List SoftClause)}
    (first : done <+: f.batches mode) : done.flatten <+: f.soft := by
  obtain ⟨rest, eq⟩ := first
  rw [← f.flatten_batches mode, ← eq, List.flatten_append]
  exact List.prefix_append _ _

namespace Run

/-- The last model of the SAT oracle. -/
def model {σ τ : Type} [SatOracle σ] (r : Run σ τ) : Valuation :=
  fun v => (SatOracle.value r.sat v).getD false

/-- All soft clauses of the formula have entered. The model of the SAT oracle is feasible and
falsifies exactly the clauses that the set names, and what these cost is the least cost. -/
structure Attains {σ : Type} [SatOracle σ] (f : Formula) (r : Run σ Hitter) (set : List Nat) :
    Prop where
  entered : r.relaxed.map Relaxation.soft = f.soft
  feasible : f.feasible r.model = true
  falsified : ∀ v, v ∈ set ↔ ∃ x ∈ falsified r.relaxed r.model, x.var = v
  least : IsLeast {w | ∃ ν, f.feasible ν = true ∧ f.cost ν = w} (r.hitter.costOf set)

section Settled

variable {σ : Type} [SatOracle σ] {Holds : σ → List Clause → Prop} {f : Formula} {base : Nat}
  {cores : List Core} {r : Run σ Hitter} (fits : f.Fits base)
  (sound : r.Sound Holds f base cores)
include fits sound

theorem Sound.model_settled (settled : r.Settled f) :
    f.feasible r.model = true ∧ ∀ x ∈ falsified r.relaxed r.model, x.var ∈ r.hitter.ask.1 := by
  obtain ⟨ν, feasible, values, inside⟩ := settled
  have same : ∀ v, 1 ≤ v → v ≤ f.numVars → r.model v = ν v := by
    intro v one le
    rw [model, values v one le]
    rfl
  constructor
  · rw [Formula.feasible_congr fits.wellFormed fits.proper same]
    exact feasible
  · intro x mem
    obtain ⟨relaxed, false_⟩ := mem_falsified.mp mem
    have soft := sound.encodes.soft_mem relaxed
    refine inside x (mem_falsified.mpr ⟨relaxed, ?_⟩)
    rw [← false_]
    refine (Clause.holds_congr fun l hl => ?_).symm
    exact same l.var (fits.proper.soft _ soft l hl) (fits.wellFormed.softIds _ soft l hl)

/-- A variable that the hitting set names weighs something, so leaving it out would make a
cheaper set. -/
theorem Sound.falsified_of_mem_ask {ν : Valuation} (feasible : f.feasible ν = true)
    (inside : ∀ x ∈ falsified r.relaxed ν, x.var ∈ r.hitter.ask.1) {v : Nat}
    (named : v ∈ r.hitter.ask.1) : ∃ x ∈ falsified r.relaxed ν, x.var = v := by
  -- otherwise the falsified clauses would be a cheaper set that hits every core
  let given : Finset Nat := ((falsified r.relaxed ν).map Relaxation.var).toFinset
  by_contra other
  have outside : v ∉ given := by
    intro mem
    obtain ⟨x, hx, var⟩ := List.mem_map.mp (List.mem_toFinset.mp mem)
    exact other ⟨x, hx, var⟩
  have subset : given ⊆ r.hitter.ask.1.toFinset := by
    intro u mem
    obtain ⟨x, hx, rfl⟩ := List.mem_map.mp (List.mem_toFinset.mp mem)
    exact List.mem_toFinset.mpr (inside x hx)
  have positive : 0 < r.hitter.weight v := by
    obtain ⟨c, hc, inCore⟩ := sound.records.ask_members named
    obtain ⟨x, hx, rfl⟩ := sound.explains.vars_mem hc inCore
    rw [sound.weight_eq hx named]
    exact sound.soft_weight_pos fits hx
  have nonneg := sound.weight?_nonneg fits
  have least := sound.records.ask_least nonneg (sound.falsified_hits feasible)
  rw [sound.records.costOf_ask_eq] at least
  have cheaper := Finset.sum_lt_sum_of_subset subset (List.mem_toFinset.mpr named) outside positive
    fun u _ _ => Hitter.weight_nonneg nonneg u
  exact absurd least (not_le_of_gt cheaper)

theorem Sound.attains (settled : r.Settled f) (entered : r.relaxed.map Relaxation.soft = f.soft) :
    r.Attains f r.hitter.ask.1 := by
  obtain ⟨feasible, inside⟩ := sound.model_settled fits settled
  have cost (ν : Valuation) : falsifiedWeight r.relaxed ν = f.cost ν :=
    falsifiedWeight_eq_cost entered ν
  refine ⟨entered, feasible, fun v => ⟨sound.falsified_of_mem_ask fits feasible inside, ?_⟩, ?_, ?_⟩
  · rintro ⟨x, hx, rfl⟩
    exact inside x hx
  · refine ⟨r.model, feasible, ?_⟩
    rw [← cost]
    exact le_antisymm (sound.le_costOf fits inside) (sound.costOf_le fits feasible)
  · rintro w ⟨ν, feasible, rfl⟩
    rw [← cost]
    exact sound.costOf_le fits feasible

end Settled

theorem Concludes.of_feasible {σ : Type} [SatOracle σ] {Holds : σ → List Clause → Prop}
    {f : Formula} {base : Nat} {entered : List SoftClause} {result : Ending × Run σ Hitter}
    (concludes : Concludes Holds f base entered result) {ν : Valuation}
    (feasible : f.feasible ν = true) :
    ∃ r cores, result = (.settled, r) ∧ r.Sound Holds f base cores ∧
      r.relaxed.map Relaxation.soft = entered := by
  cases concludes with
  | @settled r cores sound relaxed _ => exact ⟨r, cores, rfl, sound, relaxed⟩
  | infeasible none_ =>
    rw [none_] at feasible
    cases feasible

section Stages

variable {σ τ : Type} [SatOracle σ] [HittingOracle τ]

/-- The run that solves a formula gets past the given first batches, the last of which it
settles in the given state. -/
structure Reaches (f : Formula) (mode : Mode) (o : RunOptions) (sat : σ) (hitter : τ)
    (done : List (List SoftClause)) (r : Run σ τ) : Prop where
  room : SatOracle.numVars (seed f sat hitter).sat + f.soft.length ≤ maxVar
  first : done <+: f.batches mode
  some_ : done ≠ []
  settled : (seed f sat hitter).stages o done = (.settled, r)

theorem stages_append {o : RunOptions} {done rest : List (List SoftClause)} {r r' : Run σ τ}
    (settled : r.stages o done = (.settled, r')) :
    r.stages o (done ++ rest) = r'.stages o rest := by
  induction done generalizing r with
  | nil =>
    cases settled
    rfl
  | cons batch done ih =>
    rw [List.cons_append, Run.stages]
    rw [Run.stages] at settled
    generalize r.stage o batch = result at settled ⊢
    obtain ⟨ending, r₁⟩ := result
    cases ending with
    | settled => exact ih settled
    | infeasible => cases settled
    | failed e => cases settled

section Reaches

variable {f : Formula} {mode : Mode} {o : RunOptions} {sat : σ} {hitter : τ}
  {done : List (List SoftClause)} {r : Run σ τ} (reaches : Reaches f mode o sat hitter done r)
include reaches

/-- What the run has called by then is the beginning of all that it calls. -/
theorem Reaches.log_suffix : r.log <:+ (Run.solve f mode o sat hitter).2.log := by
  obtain ⟨rest, eq⟩ := reaches.first
  have ended : r.log <:+ (Run.stages o rest r).2.log :=
    (stable_suffix rest.flatten r.log).stages (List.Subset.refl _) (List.suffix_refl _)
  rw [← stages_append reaches.settled, eq] at ended
  rw [(solve_of_room reaches.room mode o).1]
  exact ended

theorem Reaches.log_eq :
    ∃ asked set n before, r.log = .solve asked .sat :: .get set n :: before := by
  obtain ⟨logged, relaxed⟩ := seed_logged f o.minimize sat hitter
  have next : (seed f sat hitter).relaxed.map Relaxation.soft ++ done.flatten <+: f.soft := by
    rw [relaxed]
    exact Formula.flatten_of_batches reaches.first
  obtain ⟨_, closes, _⟩ := logged.stages (o := o) (ready_seed f sat hitter) next
  rw [reaches.settled] at closes
  generalize eq : r.log = log
  cases eq ▸ closes reaches.some_ with
  | settled => exact ⟨_, _, _, _, rfl⟩

end Reaches

end Stages

section Conforming

variable {σ : Type} [SatOracle σ] {Holds : σ → List Clause → Prop} {f : Formula} {mode : Mode}
  {o : RunOptions} {sat : σ} (conforming : Conforming σ Holds) (wellFormed : f.WellFormed)
  (proper : f.Proper) (holds : Holds sat []) (enough : 2 ^ f.soft.length ≤ o.rounds)
include conforming wellFormed proper holds

theorem fits_of_room
    (room : SatOracle.numVars (seed f sat ({} : Hitter)).sat + f.soft.length ≤ maxVar) :
    f.Fits (max (SatOracle.numVars sat) f.numVars) := by
  obtain ⟨sound, relaxed⟩ := seed_sound conforming wellFormed proper holds
  rw [sound.encodes.numVars, relaxed] at room
  exact ⟨wellFormed, proper, Nat.le_max_right _ _, room⟩

include enough

/-- First batches conclude as a run on their clauses alone does. -/
theorem batches_conclude
    (room : SatOracle.numVars (seed f sat ({} : Hitter)).sat + f.soft.length ≤ maxVar)
    {done : List (List SoftClause)} (first : done <+: f.batches mode) (some_ : done ≠ []) :
    (f.only done.flatten).Fits (max (SatOracle.numVars sat) f.numVars) ∧
      Concludes Holds (f.only done.flatten) (max (SatOracle.numVars sat) f.numVars) done.flatten
        ((seed f sat ({} : Hitter)).stages o done) := by
  have part := Formula.flatten_of_batches first
  have fits := (fits_of_room conforming wellFormed proper holds room).only part
  -- seeding does not look at soft clauses
  have same : seed (f.only done.flatten) sat ({} : Hitter) = seed f sat ({} : Hitter) := rfl
  obtain ⟨sound, relaxed⟩ := seed_sound conforming fits.wellFormed fits.proper holds
  rw [same] at sound relaxed
  have fewer : 2 ^ (f.only done.flatten).soft.length ≤ o.rounds :=
    (Nat.pow_le_pow_right (by decide) part.length_le).trans enough
  refine ⟨fits, stages_concludes conforming fits fewer sound ?_ fun none_ => absurd none_ some_⟩
  rw [relaxed]
  rfl

theorem Reaches.attains {done : List (List SoftClause)} {r : Run σ Hitter}
    (reaches : Reaches f mode o sat ({} : Hitter) done r) :
    ∃ asked set n before, r.log = .solve asked .sat :: .get set n :: before ∧
      r.Attains (f.only done.flatten) set := by
  obtain ⟨asked, set, n, before, log⟩ := reaches.log_eq
  refine ⟨asked, set, n, before, log, ?_⟩
  have kept : r.hitter.ask.1 = set := by
    have played := (stable_replayed done.flatten ({} : Hitter)).stages (o := o)
      (List.Subset.refl _) (seed_replayed f sat ({} : Hitter))
    rw [reaches.settled] at played
    obtain ⟨replayed, hitter⟩ := played
    dsimp only at replayed hitter
    rw [log] at replayed hitter
    rw [hitter, replayed.1]
    exact Hitter.ask_ask _
  obtain ⟨fits, concludes⟩ :=
    batches_conclude conforming wellFormed proper holds enough reaches.room reaches.first
      reaches.some_
  rw [reaches.settled] at concludes
  cases concludes with
  | settled cores sound entered settled => exact kept ▸ sound.attains fits settled entered

/-- A feasible formula gets past every stage. -/
theorem reaches_of_feasible
    (room : SatOracle.numVars (seed f sat ({} : Hitter)).sat + f.soft.length ≤ maxVar)
    {done : List (List SoftClause)} (first : done <+: f.batches mode) (some_ : done ≠ [])
    {ν : Valuation} (feasible : f.feasible ν = true) :
    ∃ r, Reaches f mode o sat ({} : Hitter) done r := by
  obtain ⟨_, concludes⟩ :=
    batches_conclude conforming wellFormed proper holds enough room first some_
  obtain ⟨r, _, settled, _⟩ := concludes.of_feasible feasible
  exact ⟨r, room, first, some_, settled⟩

theorem solve_sound
    (room : SatOracle.numVars (seed f sat ({} : Hitter)).sat + f.soft.length ≤ maxVar)
    (mode : Mode) {ν : Valuation} (feasible : f.feasible ν = true) :
    let last := (Run.solve f mode o sat ({} : Hitter)).2
    ∃ cores, last.Sound Holds f (max (SatOracle.numVars sat) f.numVars) cores ∧
      last.relaxed.map Relaxation.soft = f.soft := by
  obtain ⟨_, concludes⟩ := batches_conclude conforming wellFormed proper holds enough room
    (List.prefix_refl _) (f.batches_ne_nil mode)
  rw [f.flatten_batches mode] at concludes
  obtain ⟨r, cores, settled, sound, entered⟩ := concludes.of_feasible feasible
  rw [(solve_of_room room mode o).1, settled]
  exact ⟨cores, sound, entered⟩

/-- Every feasible valuation falsifies a clause of each recorded core. -/
theorem solve_cores_blame (mode : Mode) {ν : Valuation} (feasible : f.feasible ν = true) :
    let last := (Run.solve f mode o sat ({} : Hitter)).2
    ∀ c ∈ Log.cores last.log, ∃ v ∈ c.vars, ∃ s, Log.Relaxes f last.log v s ∧
      Clause.holds ν s.clause = false := by
  intro last c mem
  by_cases room : SatOracle.numVars (seed f sat ({} : Hitter)).sat + f.soft.length ≤ maxVar
  · obtain ⟨cores, sound, _⟩ :=
      solve_sound conforming wellFormed proper holds enough room mode feasible
    obtain ⟨logged, _⟩ := solve_logged f mode o sat ({} : Hitter) room
    have hitter := ((stable_replayed f.soft ({} : Hitter)).solve (seed_replayed f sat _) mode o).2
    have records := Log.hitter_records (logged.lawful.cores_nonempty fun e => isSetup_of_mem_seed)
    rw [← hitter] at records
    -- the two lists of cores may differ in weights only
    have vars : c.vars ∈ cores.map Core.vars := by
      rw [← sound.records.cores, records.cores]
      exact List.mem_map_of_mem mem
    obtain ⟨d, hd, same⟩ := List.mem_map.mp vars
    obtain ⟨x, hx, named⟩ := sound.explains.blames d hd ν feasible
    obtain ⟨relaxed, false_⟩ := mem_falsified.mp hx
    exact ⟨x.var, same ▸ named, x.soft, logged.relaxes relaxed, false_⟩
  · have setup := isSetup_of_no_room (Nat.lt_of_not_le room) mode o
    rw [Log.cores_eq_nil fun c => setup (.hit c)] at mem
    cases mem

theorem solve_costs (mode : Mode) :
    let last := (Run.solve f mode o sat ({} : Hitter)).2
    (Log.costs last.log).Pairwise (· ≤ ·) ∧
      ∀ w ∈ Log.costs last.log, ∀ ν, f.feasible ν = true → w ≤ f.cost ν := by
  intro last
  have lawful := solve_lawful f mode o sat ({} : Hitter)
  have setup : ∀ e ∈ (seed f sat ({} : Hitter)).log, e.IsSetup := fun e => isSetup_of_mem_seed
  obtain ⟨replayed, hitter⟩ :=
    (stable_replayed f.soft ({} : Hitter)).solve (seed_replayed f sat _) mode o
  have nonneg : ∀ c ∈ Log.cores last.log, ∀ m ∈ c.members, 0 ≤ m.2 := by
    intro c mem m hm
    obtain ⟨s, ⟨i, _, soft⟩, weight⟩ := lawful.cores_members setup c mem m hm
    rw [weight]
    exact le_of_lt (wellFormed.positive s (List.mem_of_getElem? soft))
  obtain ⟨ascending, bound⟩ :=
    Log.costs_ascending replayed (lawful.cores_nonempty setup) nonneg
  refine ⟨ascending, fun w mem ν feasible => ?_⟩
  by_cases room : SatOracle.numVars (seed f sat ({} : Hitter)).sat + f.soft.length ≤ maxVar
  · obtain ⟨cores, sound, entered⟩ :=
      solve_sound conforming wellFormed proper holds enough room mode feasible
    have fits := fits_of_room conforming wellFormed proper holds room
    calc w ≤ last.hitter.costOf last.hitter.ask.1 := hitter ▸ bound w mem
      _ ≤ falsifiedWeight last.relaxed ν := sound.costOf_le fits feasible
      _ = f.cost ν := falsifiedWeight_eq_cost entered ν
  · rw [Log.costs_of_isSetup (isSetup_of_no_room (Nat.lt_of_not_le room) mode o)] at mem
    cases mem

end Conforming

/-- On the exhaustive solver every recorded core names soft clauses that cannot all be satisfied
by a feasible valuation, and the hitting sets cost more and more, but never more than an
optimum. At the end of a stage the last one names just the clauses that the model falsifies, for
the least cost that the clauses which have entered allow. A feasible formula gets past every
stage. -/
theorem solve_exhaustive_stagewise {f : Formula} (made : f.Made) (proper : f.Proper) (mode : Mode)
    {o : RunOptions} (enough : f.roundBound ≤ o.rounds) :
    let last := (Run.solve f mode o ({} : ExhaustiveSolver) ({} : Hitter)).2
    (∀ c ∈ Log.cores last.log,
      (∀ m ∈ c.members, ∃ s, Log.Relaxes f last.log m.1 s ∧ m.2 = s.weight) ∧
        ∀ ν, f.feasible ν = true → ∃ v ∈ c.vars, ∃ s, Log.Relaxes f last.log v s ∧
          Clause.holds ν s.clause = false) ∧
      (Log.costs last.log).Pairwise (· ≤ ·) ∧
      (∀ w ∈ Log.costs last.log, ∀ ν, f.feasible ν = true → w ≤ f.cost ν) ∧
      (∀ done r, Reaches f mode o ({} : ExhaustiveSolver) ({} : Hitter) done r →
        r.log <:+ last.log ∧
          ∃ asked set n before, r.log = .solve asked .sat :: .get set n :: before ∧
            r.Attains (f.only done.flatten) set) ∧
      (f.numVars + f.soft.length ≤ maxVar → ∀ ν, f.feasible ν = true →
        ∀ done, done <+: f.batches mode → done ≠ [] →
          ∃ r, Reaches f mode o ({} : ExhaustiveSolver) ({} : Hitter) done r) := by
  intro last
  have wellFormed := made.wellFormed
  have conforming := ExhaustiveSolver.conforming
  have holds := ExhaustiveSolver.holds_nil
  obtain ⟨ascending, bound⟩ := solve_costs conforming wellFormed proper holds enough mode
  refine ⟨fun c mem => ⟨?_, fun ν feasible => ?_⟩, ascending, bound, fun done r reaches => ?_, ?_⟩
  · exact (solve_lawful f mode o _ _).cores_members (fun e => isSetup_of_mem_seed) c mem
  · exact solve_cores_blame conforming wellFormed proper holds enough mode feasible c mem
  · exact ⟨reaches.log_suffix, reaches.attains conforming wellFormed proper holds enough⟩
  · intro room ν feasible done first some_
    refine reaches_of_feasible conforming wellFormed proper holds enough ?_ first some_ feasible
    obtain ⟨sound, relaxed⟩ := seed_sound conforming wellFormed proper holds
    rw [sound.encodes.numVars, relaxed]
    exact (congrArg (· + f.soft.length) (Nat.zero_max f.numVars)).trans_le room

/-- The first clause can be satisfied for nothing, and is the one to give up once the others
have entered. -/
theorem solve_exhaustive_stagewise_two_stages :
    let f := Formula.twoStages
    let first : SoftClause := ⟨[Lit.neg 1], 3 / 2, 0⟩
    let o : RunOptions := { rounds := f.roundBound }
    let last := (Run.solve f .partitioned o ({} : ExhaustiveSolver) ({} : Hitter)).2
    Problem.twoStages.build = .ok f ∧ f.Proper ∧ Log.costs last.log = [0, 0, 1, 3 / 2] ∧
      (Log.costs last.log).Pairwise (· ≤ ·) ∧ (∀ ν, f.feasible ν = true → 3 / 2 ≤ f.cost ν) ∧
      ∃ r set, Reaches f .partitioned o ({} : ExhaustiveSolver) ({} : Hitter) [[first]] r ∧
        r.log <:+ last.log ∧ r.Attains (f.only [first]) set := by
  intro f first o
  dsimp only
  have built : Problem.twoStages.build = .ok f := Problem.build_twoStages
  have proper : f.Proper := Formula.twoStages_proper
  have feasible : f.feasible (fun _ => true) = true := by decide
  have costs : Log.costs (Run.solve f .partitioned o ({} : ExhaustiveSolver) ({} : Hitter)).2.log =
      [0, 0, 1, 3 / 2] := by cbv
  obtain ⟨_, ascending, bound, ends, gets⟩ :=
    solve_exhaustive_stagewise (.inl ⟨_, built⟩) proper .partitioned (o := o) (le_refl _)
  obtain ⟨r, reaches⟩ := gets (by decide) _ feasible [[first]] (by decide +kernel) (by decide)
  obtain ⟨suffix, _, set, _, _, _, attains⟩ := ends _ r reaches
  refine ⟨built, proper, costs, ascending, fun ν feasible => bound _ ?_ ν feasible, r, set, reaches,
    suffix, attains⟩
  rw [costs]
  simp

end Run

end MaxSat

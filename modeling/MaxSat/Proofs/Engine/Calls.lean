import MaxSat.Proofs.Engine.Lockstep
import MaxSat.Proofs.Engine.Replay

/-!
# Counting oracle calls

The cores of the exhaustive solver are minimal as they come. Shrinking one leaves
out each of its literals in turn, to no avail, and asks for all of them again. So
whether cores are shrunk changes no answer, no core and no model, only how often
the solver is called, and by how much can be read off the recorded cores.

Apart from that each round takes one hitting set and one call, and each but the
last of a stage records a core.
-/

namespace MaxSat

namespace Core

/-- The calls that shrinking takes: one for each literal and one for what is left. There is
nothing to try for a core of one literal. -/
def trials : List Core → Nat
  | [] => 0
  | c :: cs => (if 2 ≤ c.vars.length then c.vars.length + 1 else 0) + trials cs

theorem trials_append (cs ds : List Core) : trials (cs ++ ds) = trials cs + trials ds := by
  induction cs with
  | nil => simp [trials]
  | cons c cs ih => rw [List.cons_append, trials, trials, ih, Nat.add_assoc]

theorem dropRepeats_of_distinct {ms : List (Nat × Weight)} (distinct : (ms.map Prod.fst).Nodup) :
    dropRepeats ms = ms := by
  induction ms with
  | nil => rfl
  | cons m ms ih =>
    obtain ⟨first, rest⟩ := List.nodup_cons.mp distinct
    rw [dropRepeats, ih rest]
    cases ms with
    | nil => rfl
    | cons k ms =>
      have apart : (k.1 == m.1) = false := by
        rw [beq_eq_false_iff_ne]
        intro same
        exact first (same ▸ List.mem_cons_self)
      rw [List.dropWhile_cons, apart]
      rfl

theorem length_vars_ofMembers {ms : List (Nat × Weight)} (distinct : (ms.map Prod.fst).Nodup) :
    (ofMembers ms).vars.length = ms.length := by
  have perm := ms.mergeSort_perm fun a b => a.1 ≤ b.1
  have sorted := (perm.map Prod.fst).nodup_iff.mpr distinct
  rw [vars, ofMembers, List.length_map, dropRepeats_of_distinct sorted, perm.length_eq]

end Core

theorem Run.lits_of_coreMembers {kept : List Relaxation} {core : List Lit}
    {ms : List (Nat × Weight)} (eq : Run.coreMembers kept core = .ok ms) :
    (ms.map Prod.fst).map Lit.pos = core := by
  induction core generalizing ms with
  | nil =>
    cases eq
    rfl
  | cons l core ih =>
    rw [Run.coreMembers] at eq
    cases found : kept.find? fun x => Lit.pos x.var == l with
    | none =>
      rw [found] at eq
      cases eq
    | some x =>
      have lit : Lit.pos x.var = l := by simpa using List.find?_some found
      rw [found] at eq
      cases later : Run.coreMembers kept core with
      | error e =>
        rw [later] at eq
        cases eq
      | ok ks =>
        rw [later] at eq
        cases eq
        rw [List.map_cons, List.map_cons, ih later, lit]

/-- The core that a duplicate-free list of literals is recorded as has its size. -/
theorem Run.length_core {kept : List Relaxation} {core : List Lit} {ms : List (Nat × Weight)}
    (eq : Run.coreMembers kept core = .ok ms) (nodup : core.Nodup) :
    (Core.ofMembers ms).vars.length = core.length := by
  have lits := Run.lits_of_coreMembers eq
  have distinct : (ms.map Prod.fst).Nodup := by
    rw [← lits] at nodup
    exact nodup.of_map
  rw [Core.length_vars_ofMembers distinct, ← lits, List.length_map, List.length_map]

/-- One for each bucket that holds a clause, and at least one. -/
def Formula.numStages (f : Formula) : Mode → Nat
  | .flat => 1
  | .partitioned => max 1 f.buckets.length

theorem Formula.length_batches (f : Formula) (mode : Mode) :
    (f.batches mode).length = f.numStages mode := by
  cases mode with
  | flat => rfl
  | partitioned =>
    have some_ := List.length_pos_iff.mpr (f.batches_ne_nil .partitioned)
    rw [batches] at some_ ⊢
    rw [numStages]
    split
    · rename_i none_
      rw [List.isEmpty_iff] at none_
      simp [buckets, none_, bucketsOf]
    · rename_i entered
      rw [if_neg entered, List.length_map] at some_
      rw [List.length_map]
      omega

/-- The same cost and model, whatever the statistics. -/
def Solution.Alike (one other : Solution) : Prop :=
  other.cost = one.cost ∧ other.model = one.model

namespace Run

variable {f : Formula} {base : Nat} {rest : List SoftClause} {o : RunOptions}
  {r r' : Run ExhaustiveSolver Hitter}

/-- The state without the tally, and with only the recorded cores in its log. -/
def bare (r : Run ExhaustiveSolver Hitter) : Run ExhaustiveSolver Hitter :=
  { r with sat := { r.sat with tally := {} }, log := r.log.filter fun e => e.core?.isSome }

theorem cores_bare (r : Run ExhaustiveSolver Hitter) :
    Log.cores r.bare.log = Log.cores r.log := by
  change Log.cores (r.log.filter fun e => e.core?.isSome) = _
  induction r.log with
  | nil => rfl
  | cons e log ih =>
    rw [List.filter_cons]
    cases found : e.core? with
    | none => simp [found, ih]
    | some c => simp [found, ih]

/-- A call leaves its own model behind, and nothing of the one before. -/
theorem bare_ask (r : Run ExhaustiveSolver Hitter) (ls : List Lit) :
    (r.ask ls).2.bare =
      { r.bare with sat := { r.bare.sat with model := Search.model? r.sat.cnf ls } } := by
  have sat : ({ (r.sat.solve ls).2 with tally := {} } : ExhaustiveSolver) =
      { cnf := r.sat.cnf, model := Search.model? r.sat.cnf ls } := by
    dsimp only
    rw [r.sat.cnf_solve, r.sat.model_solve]
  exact congrArg (fun s => ({ r.bare with sat := s } : Run ExhaustiveSolver Hitter)) sat

theorem record_bare (same : r'.bare = r.bare) (c : Core) :
    (r'.record c).bare = (r.record c).bare :=
  congrArg (fun b : Run ExhaustiveSolver Hitter => { b with
    hitter := HittingOracle.hit b.hitter c
    cores := b.cores + 1
    log := .hit c :: b.log }) same

theorem parallel_bare :
    Parallel (fun _ => True) id fun r r' : Run ExhaustiveSolver Hitter => r'.bare = r.bare where
  relaxed {r r'} same := by
    have relaxed : r'.relaxed = r.relaxed := congrArg (fun b => b.relaxed) same
    rw [relaxed, List.forall₂_same]
    exact fun x _ => ⟨rfl, rfl⟩
  admits _ _ _ := trivial
  getSet {r r'} same := by
    constructor
    · exact congrArg (fun b => (HittingOracle.get b.hitter).1) same
    · exact congrArg (fun b : Run ExhaustiveSolver Hitter =>
        { b with hitter := (HittingOracle.get b.hitter).2, hsCalls := b.hsCalls + 1 }) same
  ask {r r'} same ls _ := by
    have cnf : r'.sat.cnf = r.sat.cnf := congrArg (fun b => b.sat.cnf) same
    refine ⟨ExhaustiveSolver.reply_congr cnf ls, ?_, fun _ _ _ _ => trivial⟩
    rw [bare_ask, bare_ask, same, cnf]
  record {r r'} same ms := by
    simp only [id, List.map_id']
    exact record_bare same (Core.ofMembers ms)

theorem relax_bare (same : r'.bare = r.bare) (s : SoftClause) :
    (r'.relax s).bare = (r.relax s).bare :=
  congrArg (fun b : Run ExhaustiveSolver Hitter =>
    { b with sat := (b.relax s).sat, relaxed := (b.relax s).relaxed }) same

/-- The literals stay, and only the last call, on all of them, leaves a trace. -/
theorem minimizeFrom_of_minimal {core : List Lit} (proper : r.sat.cnf.Proper)
    (positive : ∀ l ∈ core, 1 ≤ l.var) (minimal : MinimalCore r.sat.cnf.clauses core)
    (fuel : Nat) {i : Nat} (inside : i ≤ core.length) (enough : core.length < fuel + i) :
    ∃ last, minimizeFrom ask fuel core i r = (.ok core, last) ∧
      last.bare = (r.ask core).2.bare ∧
      last.sat.tally.calls = r.sat.tally.calls + (core.length - i) + 1 := by
  induction fuel generalizing i r with
  | zero => omega
  | succ fuel ih =>
    rw [minimizeFrom]
    by_cases done : core.length ≤ i
    · have calls : (r.ask core).2.sat.tally.calls = r.sat.tally.calls + 1 := r.sat.calls_solve core
      have answered : ∀ reason, (r.ask core).1 ≠ .failed reason := r.sat.reply_ne_failed core
      rw [if_pos done]
      generalize r.ask core = called at answered calls
      obtain ⟨reply, last⟩ := called
      refine ⟨last, ?_, rfl, ?_⟩
      · cases reply with
        | sat => rfl
        | unsat part => rfl
        | failed reason => exact absurd rfl (answered reason)
      · dsimp only at calls
        omega
    · -- without the literal the rest is consistent, so it stays and the next one is tried
      have trial : ∀ l ∈ core.eraseIdx i, 1 ≤ l.var := fun l mem =>
        positive l (List.mem_of_mem_eraseIdx mem)
      have needed := minimal.needed i (Nat.lt_of_not_le done)
      have reply : (r.ask (core.eraseIdx i)).1 = .sat :=
        ExhaustiveSolver.reply_of_consistent proper trial needed
      have cnf : (r.ask (core.eraseIdx i)).2.sat.cnf = r.sat.cnf := r.sat.cnf_solve _
      have calls : (r.ask (core.eraseIdx i)).2.sat.tally.calls = r.sat.tally.calls + 1 :=
        r.sat.calls_solve _
      -- the model that the trial found is gone with the last call
      have overwritten : ((r.ask (core.eraseIdx i)).2.ask core).2.bare = (r.ask core).2.bare := by
        rw [bare_ask, bare_ask, bare_ask, cnf]
      rw [if_neg done]
      dsimp only
      generalize r.ask (core.eraseIdx i) = called at reply cnf calls overwritten
      obtain ⟨_, next⟩ := called
      obtain rfl := reply
      dsimp only at cnf calls overwritten
      obtain ⟨last, result, state, count⟩ :=
        ih (r := next) (i := i + 1) (by rwa [cnf]) (by rwa [cnf]) (by omega) (by omega)
      refine ⟨last, result, state.trans overwritten, ?_⟩
      omega

/-- The second state is the first after the calls that shrinking the core takes, if it is asked
for. -/
structure Tries (o : RunOptions) (c : Core) (r last : Run ExhaustiveSolver Hitter) : Prop where
  state : last.bare = r.bare
  calls : last.sat.tally.calls =
    r.sat.tally.calls + if o.minimize then Core.trials [c] else 0

section Minimal

variable {core : List Lit} (proper : r.sat.cnf.Proper) (positive : ∀ l ∈ core, 1 ≤ l.var)
  (minimal : MinimalCore r.sat.cnf.clauses core) (unsat : r.sat.model = none)
include proper positive minimal unsat

theorem shrink_of_minimal {c : Core} (size : c.vars.length = core.length) (o : RunOptions) :
    ∃ last, r.shrink o core = (.ok core, last) ∧ Tries o c r last := by
  have again : (r.ask core).2.bare = r.bare := by
    have none_ : Search.model? r.sat.cnf core = none := by
      have refuted := minimal.refuted
      rwa [← satisfiable_iff proper positive, Search.satisfiable, Option.isSome_iff_ne_none, ne_eq,
        Classical.not_not] at refuted
    rw [bare_ask, none_, ← unsat]
    rfl
  have trials : Core.trials [c] = if 1 < core.length then core.length + 1 else 0 := by
    rw [Core.trials, Core.trials, size, Nat.add_zero]
    rfl
  rw [shrink]
  by_cases tried : (o.minimize && 1 < core.length) = true
  · rw [if_pos tried]
    rw [Bool.and_eq_true, decide_eq_true_eq] at tried
    obtain ⟨last, result, state, calls⟩ := minimizeFrom_of_minimal proper positive minimal
      (o.rounds + core.length + 1) (Nat.zero_le _) (by omega)
    refine ⟨last, result, state.trans again, ?_⟩
    rw [if_pos tried.1, trials, if_pos tried.2, calls]
    rfl
  · rw [if_neg tried]
    refine ⟨r, rfl, rfl, ?_⟩
    rw [Bool.and_eq_true, decide_eq_true_eq] at tried
    split
    · rename_i asked
      rw [trials, if_neg fun several => tried ⟨asked, several⟩]
      rfl
    · rfl

/-- Under any options the core is recorded as it is, or there is nothing to record. -/
theorem learn_of_minimal {kept : List Relaxation} (assumes : Assumes kept core)
    (nodup : core.Nodup) :
    (∀ o, r.learn o kept core = (.ended .infeasible, r)) ∨
      ∃ c, ∀ o, ∃ last : Run ExhaustiveSolver Hitter,
        r.learn o kept core = (.again, last.record c) ∧ Tries o c r last := by
  obtain ⟨ms, members, _⟩ := coreMembers_spec assumes
  cases core with
  | nil =>
    left
    intro o
    simp [learn, shrink]
  | cons l core =>
    right
    refine ⟨Core.ofMembers ms, fun o => ?_⟩
    obtain ⟨last, shrunk, tries⟩ :=
      shrink_of_minimal proper positive minimal unsat (length_core members nodup) o
    refine ⟨last, ?_, tries⟩
    simp only [learn, shrunk, members]

end Minimal

/-- The state after the hitting set of a round and the call on the clauses outside of it. -/
def asked (r : Run ExhaustiveSolver Hitter) : Run ExhaustiveSolver Hitter :=
  (r.getSet.2.ask (r.getSet.2.assumptions r.getSet.1)).2

/-- Under any options a round ends its stage in the same way or records the same core. -/
theorem round_cases (awaits : r.Awaits f base rest) :
    (∃ ending last, (∀ o, r.round o = (.ended ending, last)) ∧
      (ending = .settled → last = r.asked)) ∨
    ∃ c, ∀ o, ∃ last : Run ExhaustiveSolver Hitter,
      r.round o = (.again, last.record c) ∧ Tries o c r.asked last := by
  have awaits₁ := awaits.getSet
  simp only [round, asked]
  generalize r.getSet = got at awaits₁
  obtain ⟨set, r₁⟩ := got
  dsimp only at awaits₁ ⊢
  cases set.find? fun v => (r₁.relaxation? v).isNone with
  | some v =>
    left
    exact ⟨.failed (.unknownVariable v), r₁, fun o => rfl, by rintro ⟨⟩⟩
  | none =>
    have assumes := r₁.assumes_assumptions set
    have positive : ∀ l ∈ r₁.assumptions set, 1 ≤ l.var := by
      intro l mem
      obtain ⟨x, hx, rfl⟩ := assumes l mem
      exact awaits₁.positive (r₁.kept_subset set hx)
    have proper := awaits₁.encodes.holds.2
    rcases ExhaustiveSolver.solve_cases proper positive with
      ⟨m, _, answer⟩ | ⟨core, sublist, minimal, answer⟩
    · left
      have reply : (r₁.ask (r₁.assumptions set)).1 = .sat := congrArg Prod.fst answer
      generalize r₁.ask (r₁.assumptions set) = called at reply
      obtain ⟨_, r₂⟩ := called
      obtain rfl := reply
      exact ⟨.settled, r₂, fun o => rfl, fun _ => rfl⟩
    · have reply : (r₁.ask (r₁.assumptions set)).1 = .unsat (some core) :=
        congrArg Prod.fst answer
      have cnf : (r₁.ask (r₁.assumptions set)).2.sat.cnf = r₁.sat.cnf := r₁.sat.cnf_solve _
      have unsat : (r₁.ask (r₁.assumptions set)).2.sat.model = none :=
        congrArg (fun a => a.2.model) answer
      have kept : (r₁.ask (r₁.assumptions set)).2.kept set = r₁.kept set := rfl
      generalize r₁.ask (r₁.assumptions set) = called at reply cnf unsat kept
      obtain ⟨_, r₂⟩ := called
      obtain rfl := reply
      dsimp only at cnf unsat kept ⊢
      have nodup : core.Nodup := (nodup_assumptions awaits₁.encodes.distinct set).sublist sublist
      rw [← cnf] at proper minimal
      rw [kept]
      rcases learn_of_minimal proper (fun l mem => positive l (sublist.mem mem)) minimal unsat
        (fun l mem => assumes l (sublist.mem mem)) nodup with none_ | recorded
      · left
        exact ⟨.infeasible, r₂, none_, by rintro ⟨⟩⟩
      · right
        exact recorded

theorem round_options (awaits : r.Awaits f base rest) (o o' : RunOptions) :
    (r.round o').1 = (r.round o).1 ∧ (r.round o').2.bare = (r.round o).2.bare := by
  rcases round_cases awaits with ⟨ending, last, ended, _⟩ | ⟨c, recorded⟩
  · rw [ended, ended]
    exact ⟨rfl, rfl⟩
  · obtain ⟨one, eq, tries⟩ := recorded o
    obtain ⟨other, eq', tries'⟩ := recorded o'
    rw [eq, eq']
    exact ⟨rfl, record_bare (tries'.state.trans tries.state.symm) c⟩

theorem Awaits.round (awaits : r.Awaits f base rest) (o : RunOptions) :
    (r.round o).2.Awaits f base rest := by
  have stable : Stable [] fun r : Run ExhaustiveSolver Hitter => r.Awaits f base rest := {
    relax := fun _ s none_ => absurd none_ List.not_mem_nil
    getSet := Awaits.getSet
    ask := Awaits.ask
    record := Awaits.record }
  exact stable.round awaits

theorem lockstep_options (fits : f.Fits base) (o o' : RunOptions) :
    Lockstep o o' fun rest rest' (r r' : Run ExhaustiveSolver Hitter) =>
      rest' = rest ∧ r.Awaits f base rest ∧ r'.bare = r.bare where
  relax := by
    rintro s s' rest rest' r r' ⟨softs, awaits, same⟩
    obtain ⟨rfl, rfl⟩ := List.cons.inj softs
    exact ⟨rfl, awaits.relax fits, relax_bare same s'⟩
  round := by
    rintro rest rest' r r' ⟨softs, awaits, same⟩
    obtain ⟨step, next⟩ := parallel_bare.round (o := o') same
    obtain ⟨step', next'⟩ := round_options awaits o o'
    exact ⟨step.trans step', softs, awaits.round o, next.trans next'⟩

theorem finish_bare (same : r'.bare = r.bare) (f : Formula) (n : Nat) :
    (r.finish f n).Alike (r'.finish f n) := by
  constructor
  · exact congrArg (fun b => (b.finish f n).cost) same
  · exact congrArg (fun b => (b.finish f n).model) same

/-- Runs that take as many rounds at most but differ in their options end alike. -/
theorem solve_options (fits : f.Fits f.numVars) (mode : Mode) {o o' : RunOptions}
    (rounds : o'.rounds = o.rounds) :
    let run (o : RunOptions) := Run.solve f mode o ({} : ExhaustiveSolver) ({} : Hitter)
    Outcome.Alike Solution.Alike (run o).1 (run o').1 ∧
      Log.cores (run o').2.log = Log.cores (run o).2.log := by
  have awaits := seed_awaits fits.wellFormed fits.proper
  have lengths : (f.batches mode).map List.length = (f.batches mode).map List.length := rfl
  obtain ⟨alike, _, _, _, _, same⟩ := (lockstep_options fits o o').solve rounds lengths rfl
    ⟨rfl, awaits, rfl⟩ fun related => finish_bare related.2.2 f (f.batches mode).length
  refine ⟨alike, ?_⟩
  rw [← cores_bare, same, cores_bare]

/-- Where `k` stages have settled, there were `k` hitting sets more than cores, and a call for
each of them beside those that shrink cores. -/
structure Counts (o : RunOptions) (k : Nat) (r : Run ExhaustiveSolver Hitter) : Prop where
  sets : r.hsCalls = r.cores + k
  calls : r.sat.tally.calls =
    r.hsCalls + if o.minimize then Core.trials (Log.cores r.log) else 0

namespace Counts

variable {k : Nat}

theorem relax (counts : r.Counts o k) (s : SoftClause) : (r.relax s).Counts o k where
  sets := counts.sets
  calls := by
    have log : Log.cores (r.relax s).log = Log.cores r.log := by
      simp [Run.relax, Run.addClause, Run.freshVar, Event.core?]
    rw [log]
    exact counts.calls

theorem round (awaits : r.Awaits f base rest) (counts : r.Counts o k) :
    ((r.round o).1 = .again → (r.round o).2.Counts o k) ∧
      ((r.round o).1 = .ended .settled → (r.round o).2.Counts o (k + 1)) := by
  obtain ⟨sets, calls⟩ := counts
  have hsCalls : r.asked.hsCalls = r.hsCalls + 1 := rfl
  have cores : r.asked.cores = r.cores := rfl
  have more : r.asked.sat.tally.calls = r.sat.tally.calls + 1 := r.sat.calls_solve _
  have log : Log.cores r.asked.log = Log.cores r.log := by
    simp [Run.asked, Run.ask, Run.getSet, Event.core?]
  rcases round_cases awaits with ⟨ending, last, ended, settles⟩ | ⟨c, recorded⟩
  · rw [ended o]
    refine ⟨by rintro ⟨⟩, fun settled => ?_⟩
    obtain rfl := settles (Step.ended.inj settled)
    dsimp only
    constructor
    · omega
    · rw [log]
      omega
  · -- the trials for the core come first and are accounted for once it is recorded
    obtain ⟨last, eq, state, tried⟩ := recorded o
    have hsCalls' : last.hsCalls = r.asked.hsCalls := congrArg (fun b => b.hsCalls) state
    have cores' : last.cores = r.asked.cores := congrArg (fun b => b.cores) state
    have log' : Log.cores (last.record c).log = Log.cores r.log ++ [c] := by
      have same : Log.cores last.bare.log = Log.cores r.asked.bare.log := by rw [state]
      rw [cores_bare, cores_bare, log] at same
      simp [Run.record, Event.core?, same]
    rw [eq]
    refine ⟨fun _ => ⟨?_, ?_⟩, by rintro ⟨⟩⟩
    · change last.hsCalls = last.cores + 1 + k
      omega
    · change last.sat.tally.calls = last.hsCalls + _
      rw [log', Core.trials_append]
      by_cases minimize : o.minimize = true
      · rw [if_pos minimize] at calls tried ⊢
        omega
      · rw [if_neg minimize] at calls tried ⊢
        omega

theorem converge (n : Nat) {r : Run ExhaustiveSolver Hitter} (awaits : r.Awaits f base rest)
    (counts : r.Counts o k) (settled : (Run.converge o n r).1 = .settled) :
    (Run.converge o n r).2.Awaits f base rest ∧ (Run.converge o n r).2.Counts o (k + 1) := by
  induction n generalizing r with
  | zero => cases settled
  | succ n ih =>
    have awaits' := awaits.round o
    obtain ⟨again, ends⟩ := counts.round awaits
    rw [Run.converge] at settled ⊢
    generalize r.round o = next at awaits' again ends settled
    obtain ⟨step, r'⟩ := next
    cases step with
    | ended ending =>
      obtain rfl : ending = .settled := settled
      exact ⟨awaits', ends rfl⟩
    | again => exact ih awaits' (again rfl) settled

theorem foldl_relax (fits : f.Fits base) {batch : List SoftClause}
    {r : Run ExhaustiveSolver Hitter} (awaits : r.Awaits f base (batch ++ rest))
    (counts : r.Counts o k) :
    (batch.foldl Run.relax r).Awaits f base rest ∧ (batch.foldl Run.relax r).Counts o k := by
  induction batch generalizing r with
  | nil => exact ⟨awaits, counts⟩
  | cons s batch ih => exact ih (awaits.relax fits) (counts.relax s)

theorem stages (fits : f.Fits base) {batches : List (List SoftClause)} {k : Nat}
    {r : Run ExhaustiveSolver Hitter} (awaits : r.Awaits f base batches.flatten)
    (counts : r.Counts o k) (settled : (Run.stages o batches r).1 = .settled) :
    (Run.stages o batches r).2.Awaits f base [] ∧
      (Run.stages o batches r).2.Counts o (k + batches.length) := by
  induction batches generalizing k r with
  | nil => exact ⟨awaits, counts⟩
  | cons batch batches ih =>
    obtain ⟨entered, counts⟩ := counts.foldl_relax fits awaits
    have ends := counts.converge o.rounds entered
    rw [Run.stages, Run.stage] at settled ⊢
    generalize Run.converge o o.rounds (batch.foldl Run.relax r) = result at ends settled
    obtain ⟨ending, r'⟩ := result
    cases ending with
    | settled =>
      obtain ⟨awaits', counts'⟩ := ends rfl
      rw [List.length_cons, Nat.add_comm batches.length, ← Nat.add_assoc]
      exact ih awaits' counts' settled
    | infeasible => cases settled
    | failed e => cases settled

end Counts

theorem seed_counts (f : Formula) (o : RunOptions) :
    (seed f ({} : ExhaustiveSolver) ({} : Hitter)).Counts o 0 := by
  obtain ⟨_, tally, hsCalls, cores⟩ := seed_unanswered f ({} : Hitter)
  have log : Log.cores (seed f ({} : ExhaustiveSolver) ({} : Hitter)).log = [] :=
    Log.cores_eq_nil fun c mem => isSetup_of_mem_seed mem
  constructor
  · rw [hsCalls, cores]
  · rw [tally, hsCalls, log, Core.trials, ite_self]

theorem solution_eq_finish {σ τ : Type} [SatOracle σ] [HittingOracle τ] {mode : Mode} {sat : σ}
    {hitter : τ} {sol : Solution}
    (optimum : (Run.solve f mode o sat hitter).1 = .ok (.optimum sol)) :
    sol = (Run.solve f mode o sat hitter).2.finish f (f.batches mode).length := by
  by_cases room : SatOracle.numVars (seed f sat hitter).sat + f.soft.length ≤ maxVar
  · rw [Run.solve] at optimum ⊢
    dsimp only at optimum ⊢
    rw [if_neg (Nat.not_lt_of_le room)] at optimum ⊢
    generalize (seed f sat hitter).stages o (f.batches mode) = result at optimum
    obtain ⟨ending, last⟩ := result
    cases ending with
    | settled =>
      cases optimum
      rfl
    | infeasible => cases optimum
    | failed e => cases optimum
  · rw [solve_of_no_room (Nat.lt_of_not_le room)] at optimum
    cases optimum

/-- The statistics of a run that ends in a solution, from the cores that it recorded. -/
theorem solve_stats (fits : f.Fits f.numVars) {mode : Mode} {sol : Solution} :
    let run := Run.solve f mode o ({} : ExhaustiveSolver) ({} : Hitter)
    let cores := Log.cores run.2.log
    run.1 = .ok (.optimum sol) → sol.stats = {
      satCalls := cores.length + f.numStages mode + if o.minimize then Core.trials cores else 0
      hsCalls := cores.length + f.numStages mode
      cores := cores.length
      stages := f.numStages mode
      relaxationVars := f.soft.length } := by
  intro run cores optimum
  have length : run.2.cores = cores.length := solve_cores f mode o _ _
  have awaits := seed_awaits fits.wellFormed fits.proper
  have room : SatOracle.numVars (seed f ({} : ExhaustiveSolver) ({} : Hitter)).sat +
      f.soft.length ≤ maxVar := by
    rw [awaits.start.2]
    exact fits.room
  obtain ⟨state, ending⟩ := solve_of_room room mode o
  rw [← f.flatten_batches mode] at awaits
  have ends := (seed_counts f o).stages fits awaits
  rw [← state, ← ending, f.length_batches mode, Nat.zero_add] at ends
  obtain ⟨entered, sets, calls⟩ := ends (by rw [optimum]; rfl)
  have softs : run.2.relaxed.length = f.soft.length := by
    have all := congrArg List.length entered.softs
    simpa using all
  rw [solution_eq_finish optimum, f.length_batches mode]
  change SolveStats.mk run.2.sat.tally.calls run.2.hsCalls run.2.cores _ run.2.relaxed.length = _
  rw [calls, sets, length, softs]

end Run

/-- With the exhaustive solver, shrinking cores changes nothing but the number of calls, which
the recorded cores and the stages tell in any case. -/
theorem Formula.solve_exhaustive_counts_calls {f : Formula} (wellFormed : f.WellFormed)
    (proper : f.Proper) (mode : Mode) :
    let run (minimize : Bool) := Run.solve f mode { minimize, rounds := f.roundBound }
      ({} : ExhaustiveSolver) ({} : Hitter)
    let result (minimize : Bool) := f.solve { mode, backend := .exhaustive, minimize }
    let cores := Log.cores (run false).2.log
    let rounds := cores.length + f.numStages mode
    (∀ minimize, result minimize = (run minimize).1 ∧ Log.cores (run minimize).2.log = cores) ∧
      (maxVar < f.numVars + f.soft.length ∧ (∀ minimize, result minimize =
          .error (.tooManyVariables (f.numVars + f.soft.length))) ∨
        (∀ minimize, result minimize = .ok .infeasible) ∨
        ∃ cost model, ∀ minimize, result minimize = .ok (.optimum {
          cost
          model
          stats := {
            satCalls := rounds + if minimize then Core.trials cores else 0
            hsCalls := rounds
            cores := cores.length
            stages := f.numStages mode
            relaxationVars := f.soft.length } })) := by
  intro run result cores rounds
  have eq (minimize : Bool) : result minimize = (run minimize).1 := rfl
  by_cases room : f.numVars + f.soft.length ≤ maxVar
  · have fits : f.Fits f.numVars := ⟨wellFormed, proper, Nat.le_refl _, room⟩
    have same (minimize : Bool) : Outcome.Alike Solution.Alike (run false).1 (run minimize).1 ∧
        Log.cores (run minimize).2.log = cores := Run.solve_options fits mode rfl
    refine ⟨fun minimize => ⟨eq minimize, (same minimize).2⟩, .inr ?_⟩
    have right : Outcome.Right f (run false).1 :=
      Run.solve_right ExhaustiveSolver.conforming wellFormed proper ExhaustiveSolver.holds_nil
        ((congrArg (· + f.soft.length) (Nat.zero_max f.numVars)).trans_le room) mode (le_refl _)
    generalize plain : (run false).1 = outcome at right
    cases right with
    | infeasible none_ =>
      left
      intro minimize
      obtain ⟨alike, _⟩ := same minimize
      rw [plain] at alike
      exact alike.of_infeasible
    | @optimum sol optimal =>
      right
      refine ⟨sol.cost, sol.model, fun minimize => ?_⟩
      obtain ⟨alike, recorded⟩ := same minimize
      rw [plain] at alike
      obtain ⟨sol', optimum, cost, model⟩ := alike.of_optimum
      have stats := Run.solve_stats fits optimum
      rw [recorded] at stats
      rw [eq, optimum, ← cost, ← model, ← stats]
  · have full : maxVar < f.numVars + f.soft.length := Nat.lt_of_not_le room
    have refused (minimize : Bool) := Run.solve_of_full wellFormed proper full mode
      { minimize, rounds := f.roundBound }
    have results (minimize : Bool) := congrArg Prod.fst (refused minimize)
    refine ⟨fun minimize => ⟨eq minimize, ?_⟩, .inl ⟨full, results⟩⟩
    exact congrArg (fun r => Log.cores r.2.log) ((refused minimize).trans (refused false).symm)

/-- Each of the two cores has two literals, so shrinking them takes six calls more than the four
rounds of the two stages. -/
theorem Formula.solve_exhaustive_counts_calls_two_stages :
    let f := Formula.twoStages
    let run (minimize : Bool) := Run.solve f .partitioned { minimize, rounds := f.roundBound }
      ({} : ExhaustiveSolver) ({} : Hitter)
    Problem.twoStages.build = .ok f ∧ f.Proper ∧
      (∀ minimize, (Log.cores (run minimize).2.log).map Core.vars = [[4, 6], [4, 5]]) ∧
      ∃ cost model, ∀ minimize, f.solve { mode := .partitioned, backend := .exhaustive, minimize } =
        .ok (.optimum { cost, model, stats := ⟨if minimize then 10 else 4, 4, 2, 2, 3⟩ }) := by
  intro f run
  have built : Problem.twoStages.build = .ok f := Problem.build_twoStages
  have proper : f.Proper := twoStages_proper
  have cores : Log.cores (run false).2.log = [⟨[(4, 3 / 2), (6, 1)]⟩, ⟨[(4, 3 / 2), (5, 1)]⟩] := by
    unfold run
    cbv
  have feasible : f.solve { mode := .partitioned, backend := .exhaustive } ≠ .ok .infeasible := by
    cbv
    simp
  obtain ⟨same, results⟩ :=
    f.solve_exhaustive_counts_calls (Made.wellFormed (.inl ⟨_, built⟩)) proper .partitioned
  refine ⟨built, proper, fun minimize => ?_, ?_⟩
  · rw [(same minimize).2, cores]
    rfl
  · rcases results with ⟨full, _⟩ | none_ | ⟨cost, model, optimum⟩
    · exact absurd full (by decide)
    · exact absurd (none_ false) feasible
    · refine ⟨cost, model, fun minimize => (optimum minimize).trans ?_⟩
      rw [cores]
      cases minimize <;> rfl

end MaxSat

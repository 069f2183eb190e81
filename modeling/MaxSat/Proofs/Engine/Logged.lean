import MaxSat.Proofs.Engine.Optimality
import MaxSat.Proofs.Engine.Protocol

/-!
# Runs keep to the order of calls

`Logged` says that the log of a run is lawful and tells the state of the run. It
holds once the hard clauses are in, every relaxation and every round keep it,
and so does a whole run, whose result is explained by its last calls.
-/

namespace MaxSat

/-- A core with a literal that was not assumed is refused for the first such literal. -/
theorem Run.coreMembers_of_not_assumed {kept : List Relaxation} {core : List Lit} {l : Lit}
    (found : (core.find? fun l => !(kept.map fun x => Lit.pos x.var).contains l) = some l) :
    Run.coreMembers kept core = .error (.notAssumed l) := by
  induction core with
  | nil => cases found
  | cons k core ih =>
    rw [Run.coreMembers]
    cases known : kept.find? fun x => Lit.pos x.var == k with
    | none =>
      have foreign : k ∉ kept.map fun x => Lit.pos x.var := by
        intro mem
        obtain ⟨x, hx, lit⟩ := List.mem_map.mp mem
        have other := List.find?_eq_none.mp known x hx
        simp [lit] at other
      rw [List.find?_cons_of_pos (by simpa using foreign)] at found
      rw [Option.some.inj found]
    | some x =>
      have lit : Lit.pos x.var = k := by simpa using List.find?_some known
      have assumed : k ∈ kept.map fun x => Lit.pos x.var :=
        List.mem_map.mpr ⟨x, List.mem_of_find?_eq_some known, lit⟩
      rw [List.find?_cons_of_neg (by simpa using assumed)] at found
      simp [ih found, Except.map]

namespace Run

variable {σ τ : Type} {f : Formula} {start : List Event}

/-- The log is lawful and tells which clauses are relaxed by which variables. -/
structure Logged (f : Formula) (minimize : Bool) (start : List Event) (r : Run σ τ) : Prop where
  lawful : Lawful f minimize start r.log
  vars : r.relaxed.map Relaxation.var = Log.vars r.log
  softs : r.relaxed.map Relaxation.soft <+: f.soft

section Calls

variable {minimize : Bool} {r : Run σ τ} (logged : r.Logged f minimize start)
include logged

theorem Logged.relaxes {x : Relaxation} (mem : x ∈ r.relaxed) :
    Log.Relaxes f r.log x.var x.soft := by
  obtain ⟨i, inside, rfl⟩ := List.getElem_of_mem mem
  obtain ⟨rest, softs⟩ := logged.softs
  refine ⟨i, ?_, ?_⟩
  · rw [← logged.vars, List.getElem?_map, List.getElem?_eq_getElem inside, Option.map_some]
  · rw [← softs, List.getElem?_append_left (by simpa using inside), List.getElem?_map,
      List.getElem?_eq_getElem inside, Option.map_some]

theorem Logged.assumptions_eq (set : List Nat) :
    r.assumptions set = Log.assumptions r.log set := by
  rw [Run.assumptions, Run.kept, Log.assumptions, ← logged.vars, List.filter_map, List.map_map]
  rfl

theorem Logged.relaxation?_isNone (v : Nat) :
    (r.relaxation? v).isNone = !(Log.vars r.log).contains v := by
  rw [← logged.vars, relaxation?, Bool.eq_iff_iff]
  simp [List.find?_eq_none]

theorem Logged.getSet [HittingOracle τ] (ready : Log.Ready r.log) :
    r.getSet.2.Logged f minimize start :=
  ⟨.call logged.lawful ready, by simpa [Run.getSet, Event.newVar?] using logged.vars, logged.softs⟩

theorem Logged.record [HittingOracle τ] {c : Core}
    (follows : (Event.hit c).Follows f minimize r.log) : (r.record c).Logged f minimize start :=
  ⟨.call logged.lawful follows, by simpa [Run.record, Event.newVar?] using logged.vars,
    logged.softs⟩

theorem Logged.ask [SatOracle σ] {ls : List Lit}
    (follows : ∀ reply, (Event.solve ls reply).Follows f minimize r.log) :
    (r.ask ls).2.Logged f minimize start :=
  ⟨.call logged.lawful (follows _), by simpa [Run.ask, Event.newVar?] using logged.vars,
    logged.softs⟩

theorem Logged.relax [SatOracle σ] (ready : Log.Ready r.log) {s : SoftClause}
    (next : r.relaxed.map Relaxation.soft ++ [s] <+: f.soft) :
    (r.relax s).Logged f minimize start ∧ Log.Ready (r.relax s).log := by
  have count : (Log.vars r.log).length = (r.relaxed.map Relaxation.soft).length := by
    rw [← logged.vars, List.length_map, List.length_map]
  obtain ⟨rest, eq⟩ := next
  have soft : f.soft[(Log.vars r.log).length]? = some s := by
    rw [count, ← eq, List.append_assoc, List.getElem?_append_right (le_refl _)]
    simp
  have room : (Log.vars r.log).length < f.soft.length :=
    (List.getElem?_eq_some_iff.mp soft).1
  refine ⟨⟨.call (.call logged.lawful ⟨ready, room⟩) ⟨_, _, s, rfl, soft, rfl⟩, ?_, ?_⟩, trivial⟩
  · simp [Run.relax, Run.addClause, Run.freshVar, Event.newVar?, logged.vars]
  · exact ⟨rest, by simpa [Run.relax, Run.addClause, Run.freshVar] using eq⟩

end Calls

variable [SatOracle σ] {o : RunOptions} {r : Run σ τ}

/-- How shrinking ends: with a core for the round, or with the stage. -/
inductive Shrinks (f : Formula) (minimize : Bool) (start : List Event)
    (xs : List Relaxation) (set : List Nat) (asked : List Lit) (before : List Event) :
    Except SolveError (List Lit) × Run σ τ → Prop
  | done {core : List Lit} {r : Run σ τ} (logged : r.Logged f minimize start)
      (same : r.relaxed = xs) (blames : Log.Blames minimize set asked core before r.log) :
      Shrinks f minimize start xs set asked before (.ok core, r)
  | failed {e : SolveError} {r : Run σ τ} (logged : r.Logged f minimize start)
      (same : r.relaxed = xs) (closes : (Ending.failed e).Closes minimize r.log) :
      Shrinks f minimize start xs set asked before (.error e, r)

theorem minimizeFrom_shrinks {minimize : Bool} {set : List Nat} {asked core : List Lit}
    {before : List Event} (fuel : Nat) {kept : List Lit} {i : Nat} {r : Run σ τ}
    (logged : r.Logged f minimize start)
    (shrinking : Log.Shrinking minimize set asked core before r.log) (part : kept.Sublist core) :
    Shrinks f minimize start r.relaxed set asked before
      (minimizeFrom ask fuel kept i r) := by
  have follows {ls : List Lit} {r : Run σ τ} (part : ls.Sublist core)
      (shrinking : Log.Shrinking minimize set asked core before r.log) (reply : Reply) :
      (Event.solve ls reply).Follows f minimize r.log :=
    .inr ⟨set, asked, core, before, shrinking, part⟩
  -- whatever is answered, the literals kept stay a part of the core that the round got
  induction fuel generalizing kept i r with
  | zero => exact .failed logged rfl (.calls shrinking)
  | succ fuel ih =>
    rw [minimizeFrom]
    split
    · have logged' := logged.ask (follows part shrinking)
      have log : (r.ask kept).2.log = .solve kept (r.ask kept).1 :: r.log := rfl
      have same : (r.ask kept).2.relaxed = r.relaxed := rfl
      generalize r.ask kept = called at logged' log same
      obtain ⟨reply, r'⟩ := called
      cases reply with
      | failed reason => exact .failed logged' same (log ▸ .failing)
      | sat => exact .done logged' same (log ▸ .shrunk shrinking part)
      | unsat core => exact .done logged' same (log ▸ .shrunk shrinking part)
    · have trial : (kept.eraseIdx i).Sublist core := (List.eraseIdx_sublist kept i).trans part
      have logged' := logged.ask (follows trial shrinking)
      have log : (r.ask (kept.eraseIdx i)).2.log =
        .solve (kept.eraseIdx i) (r.ask (kept.eraseIdx i)).1 :: r.log := rfl
      have same : (r.ask (kept.eraseIdx i)).2.relaxed = r.relaxed := rfl
      dsimp only
      generalize r.ask (kept.eraseIdx i) = called at logged' log same
      obtain ⟨reply, r'⟩ := called
      dsimp only at logged' log same
      rw [← same]
      cases reply with
      | failed reason => exact .failed logged' rfl (log ▸ .failing)
      | sat => exact ih logged' (log ▸ shrinking.retry trial) part
      | unsat answer =>
        exact ih logged' (log ▸ shrinking.retry trial) (List.filter_sublist.trans part)

theorem shrink_shrinks {set : List Nat} {asked core : List Lit} {before : List Event} {n : Nat}
    (logged : r.Logged f o.minimize start)
    (log : r.log = .solve asked (.unsat (some core)) :: .get set n :: before) :
    Shrinks f o.minimize start r.relaxed set asked before (r.shrink o core) := by
  rw [shrink]
  split
  · rename_i wanted
    simp only [Bool.and_eq_true, decide_eq_true_eq] at wanted
    exact minimizeFrom_shrinks _ logged ⟨wanted.1, wanted.2, [], n, by simp, log⟩ (.refl core)
  · rename_i unwanted
    refine .done logged rfl (log ▸ .answer fun on => ?_)
    simpa [on] using unwanted

variable [HittingOracle τ]

/-- What a round comes to: one more core, or the end of the stage. -/
inductive Plays (f : Formula) (minimize : Bool) (start : List Event)
    (xs : List Relaxation) (cores : List Core) : Step × Run σ τ → Prop
  | again {r : Run σ τ} (c : Core) (logged : r.Logged f minimize start)
      (same : r.relaxed = xs) (ready : Log.Ready r.log)
      (more : Log.cores r.log = cores ++ [c]) : Plays f minimize start xs cores (.again, r)
  | ended {ending : Ending} {r : Run σ τ} (logged : r.Logged f minimize start)
      (same : r.relaxed = xs) (closes : ending.Closes minimize r.log) :
      Plays f minimize start xs cores (.ended ending, r)

/-- A core whose literals were all assumed is recorded, any other is refused. -/
theorem learn_plays {set : List Nat} {core : List Lit} {before : List Event} {n : Nat}
    (logged : r.Logged f o.minimize start)
    (log : r.log =
      .solve (Log.assumptions before set) (.unsat (some core)) :: .get set n :: before) :
    Plays f o.minimize start r.relaxed (Log.cores before) (r.learn o (r.kept set) core) := by
  have vars : Log.vars r.log = Log.vars before := by simp [log, Event.newVar?]
  have asked : (r.kept set).map (fun x => Lit.pos x.var) = Log.assumptions before set := by
    rw [Log.assumptions, ← vars]
    exact logged.assumptions_eq set
  have shrinks := shrink_shrinks logged log
  rw [learn]
  generalize r.shrink o core = shrunk at shrinks
  cases shrinks with
  | failed logged' same closes => exact .ended logged' same closes
  | @done part r' logged' same blames =>
    cases part with
    | nil => exact .ended logged' same (.infeasible blames)
    | cons l part =>
      dsimp only
      -- the lookup of a literal fails exactly if it was not assumed
      cases foreign : (l :: part).find? fun l => !(Log.assumptions before set).contains l with
      | some k =>
        rw [coreMembers_of_not_assumed (asked ▸ foreign)]
        exact .ended logged' same (.foreign blames foreign)
      | none =>
        have assumed : ∀ k ∈ l :: part, k ∈ Log.assumptions before set := by
          intro k mem
          simpa using List.find?_eq_none.mp foreign k mem
        have assumes : Assumes (r.kept set) (l :: part) := by
          intro k mem
          obtain ⟨x, hx, lit⟩ := List.mem_map.mp (asked ▸ assumed k mem)
          exact ⟨x, hx, lit.symm⟩
        obtain ⟨ms, eq, members, named⟩ := coreMembers_spec assumes
        rw [eq]
        have inCore (v : Nat) : v ∈ (Core.ofMembers ms).vars ↔ Lit.pos v ∈ l :: part :=
          Core.mem_vars_ofMembers.trans (named v)
        have nonempty : (Core.ofMembers ms).vars ≠ [] := by
          obtain ⟨x, _, lit⟩ := assumes l List.mem_cons_self
          exact List.ne_nil_of_mem ((inCore x.var).mpr (lit ▸ List.mem_cons_self))
        refine .again (Core.ofMembers ms)
          (logged'.record ⟨set, _, before, blames, assumed, nonempty, inCore, ?_⟩) same trivial ?_
        · intro m mem
          obtain ⟨x, hx, rfl⟩ := members m (Core.mem_of_mem_ofMembers mem)
          obtain ⟨i, var, soft⟩ := logged.relaxes (List.mem_filter.mp hx).1
          exact ⟨x.soft, ⟨i, vars ▸ var, soft⟩, rfl⟩
        · rw [record, Log.cores_cons, blames.cores_eq]
          rfl

theorem round_plays (logged : r.Logged f o.minimize start) (ready : Log.Ready r.log) :
    Plays f o.minimize start r.relaxed (Log.cores r.log) (r.round o) := by
  have logged₁ := logged.getSet ready
  have log₁ : r.getSet.2.log =
    .get r.getSet.1 (HittingOracle.numCores r.getSet.2.hitter) :: r.log := rfl
  have same₁ : r.getSet.2.relaxed = r.relaxed := rfl
  rw [round]
  generalize r.getSet = got at logged₁ log₁ same₁
  obtain ⟨set, r₁⟩ := got
  dsimp only at logged₁ log₁ same₁ ⊢
  have vars₁ : Log.vars r₁.log = Log.vars r.log := by simp [log₁, Event.newVar?]
  have asked : Log.assumptions r₁.log set = Log.assumptions r.log set := by
    rw [Log.assumptions, vars₁, Log.assumptions]
  simp only [logged₁.relaxation?_isNone, vars₁]
  rw [logged₁.assumptions_eq, asked]
  cases unknown : set.find? fun v => !(Log.vars r.log).contains v with
  | some v => exact .ended logged₁ same₁ (log₁ ▸ .unknown unknown)
  | none =>
    have known : ∀ v ∈ set, v ∈ Log.vars r.log := by
      intro v mem
      simpa using List.find?_eq_none.mp unknown v mem
    have logged₂ : (r₁.ask (Log.assumptions r.log set)).2.Logged f o.minimize start :=
      logged₁.ask fun reply => .inl ⟨set, _, r.log, log₁, known, rfl⟩
    have log₂ : (r₁.ask (Log.assumptions r.log set)).2.log =
      .solve (Log.assumptions r.log set) (r₁.ask (Log.assumptions r.log set)).1 :: r₁.log := rfl
    have same₂ : (r₁.ask (Log.assumptions r.log set)).2.relaxed = r₁.relaxed := rfl
    rw [log₁] at log₂
    rw [← same₁]
    generalize r₁.ask (Log.assumptions r.log set) = called at logged₂ log₂ same₂
    obtain ⟨reply, r₂⟩ := called
    dsimp only at logged₂ log₂ same₂ ⊢
    cases reply with
    | failed reason => exact .ended logged₂ same₂ (log₂ ▸ .failing)
    | sat => exact .ended logged₂ same₂ (log₂ ▸ .settled)
    | unsat core =>
      cases core with
      | none => exact .ended logged₂ same₂ (log₂ ▸ .missing)
      | some core =>
        rw [← same₂]
        exact learn_plays logged₂ log₂

theorem Logged.converge (n : Nat) (logged : r.Logged f o.minimize start)
    (ready : Log.Ready r.log) :
    let ended := Run.converge o n r
    ended.2.Logged f o.minimize start ∧ ended.2.relaxed = r.relaxed ∧
      ended.1.Closes o.minimize ended.2.log := by
  induction n generalizing r with
  | zero => exact ⟨logged, rfl, .rounds ready⟩
  | succ n ih =>
    have plays := round_plays logged ready
    rw [Run.converge]
    generalize r.round o = next at plays
    cases plays with
    | ended logged' same closes => exact ⟨logged', same, closes⟩
    | again c logged' same ready' more =>
      rw [← same]
      exact ih logged' ready'

omit [HittingOracle τ] in
theorem Logged.foldl_relax {minimize : Bool} {batch : List SoftClause} {r : Run σ τ}
    (logged : r.Logged f minimize start) (ready : Log.Ready r.log)
    (next : r.relaxed.map Relaxation.soft ++ batch <+: f.soft) :
    let last := batch.foldl Run.relax r
    last.Logged f minimize start ∧ Log.Ready last.log ∧
      last.relaxed.map Relaxation.soft = r.relaxed.map Relaxation.soft ++ batch := by
  induction batch generalizing r with
  | nil => exact ⟨logged, ready, by simp⟩
  | cons s batch ih =>
    have entered : (r.relax s).relaxed.map Relaxation.soft =
        r.relaxed.map Relaxation.soft ++ [s] := List.map_append
    have split : r.relaxed.map Relaxation.soft ++ s :: batch =
        r.relaxed.map Relaxation.soft ++ [s] ++ batch := by simp
    rw [split] at next ⊢
    obtain ⟨first, ready'⟩ := logged.relax ready ((List.prefix_append _ batch).trans next)
    rw [← entered] at next ⊢
    exact ih first ready' next

theorem Logged.stages {batches : List (List SoftClause)} {r : Run σ τ}
    (logged : r.Logged f o.minimize start) (ready : Log.Ready r.log)
    (next : r.relaxed.map Relaxation.soft ++ batches.flatten <+: f.soft) :
    let ended := Run.stages o batches r
    ended.2.Logged f o.minimize start ∧
      (batches ≠ [] → ended.1.Closes o.minimize ended.2.log) ∧
      (ended.1 = .settled → ended.2.relaxed.map Relaxation.soft =
        r.relaxed.map Relaxation.soft ++ batches.flatten) := by
  induction batches generalizing r with
  | nil => exact ⟨logged, fun some_ => absurd rfl some_, fun _ => by simp [Run.stages]⟩
  | cons batch batches ih =>
    rw [List.flatten_cons, ← List.append_assoc] at next ⊢
    obtain ⟨logged₁, ready₁, entered⟩ :=
      logged.foldl_relax ready ((List.prefix_append _ batches.flatten).trans next)
    obtain ⟨logged₂, same, closes⟩ := logged₁.converge (o := o) o.rounds ready₁
    rw [Run.stages, Run.stage]
    generalize Run.converge o o.rounds (batch.foldl Run.relax r) = stage at logged₂ same closes
    obtain ⟨ending, r₂⟩ := stage
    dsimp only at logged₂ same closes
    cases ending with
    | settled =>
      have softs : r₂.relaxed.map Relaxation.soft =
          r.relaxed.map Relaxation.soft ++ batch := by rw [same, entered]
      rw [← softs] at next ⊢
      obtain ⟨logged₃, closes₃, all⟩ := ih logged₂ (Ending.ready_of_settled closes) next
      refine ⟨logged₃, fun _ => ?_, all⟩
      by_cases last : batches = []
      · subst last
        exact closes
      · exact closes₃ last
    | infeasible => exact ⟨logged₂, fun _ => closes, by rintro ⟨⟩⟩
    | failed e => exact ⟨logged₂, fun _ => closes, by rintro ⟨⟩⟩

omit [HittingOracle τ] in
theorem foldl_addClause_eq (hard : List HardClause) (r : Run σ τ) :
    hard.foldl (fun r h => r.addClause h.clause) r = { r with
      sat := hard.foldl (fun s h => SatOracle.addClause s h.clause) r.sat
      log := (hard.map fun h => Event.add h.clause).reverse ++ r.log } := by
  induction hard generalizing r with
  | nil => rfl
  | cons h hard ih =>
    rw [List.foldl_cons, ih]
    simp [addClause]

omit [HittingOracle τ] in
/-- Seeding reserves variables, adds the hard clauses and does nothing else. -/
theorem seed_eq (f : Formula) (sat : σ) (hitter : τ) :
    seed f sat hitter = {
      sat := f.hard.foldl (fun s h => SatOracle.addClause s h.clause)
        (SatOracle.reserve sat f.numVars)
      hitter
      log := (f.hard.map fun h => Event.add h.clause).reverse ++
        [.reserve f.numVars (SatOracle.numVars (SatOracle.reserve sat f.numVars))] } := by
  rw [seed, foldl_addClause_eq]
  rfl

omit [HittingOracle τ] in
theorem isSetup_of_mem_seed {sat : σ} {hitter : τ} {e : Event}
    (mem : e ∈ (seed f sat hitter).log) : e.IsSetup := by
  rw [seed_eq] at mem
  rcases List.mem_append.mp mem with mem | mem
  · obtain ⟨h, _, rfl⟩ := List.mem_map.mp (List.mem_reverse.mp mem)
    trivial
  · rw [List.mem_singleton.mp mem]
    trivial

omit [HittingOracle τ] in
theorem ready_seed (f : Formula) (sat : σ) (hitter : τ) : Log.Ready (seed f sat hitter).log := by
  -- the latest call is on the last hard clause, or the reservation if there is none
  have some_ : (seed f sat hitter).log ≠ [] := by simp [seed_eq]
  obtain ⟨e, log, eq⟩ := List.exists_cons_of_ne_nil some_
  have mem : e ∈ (seed f sat hitter).log := eq ▸ List.mem_cons_self
  have setup := isSetup_of_mem_seed mem
  rw [eq]
  cases e with
  | reserve n after => trivial
  | add c => trivial
  | _ => cases setup

omit [HittingOracle τ] in
theorem seed_logged (f : Formula) (minimize : Bool) (sat : σ) (hitter : τ) :
    let r := seed f sat hitter
    r.Logged f minimize r.log ∧ r.relaxed = [] := by
  intro r
  have relaxed : r.relaxed = [] := by
    change (seed f sat hitter).relaxed = []
    rw [seed_eq]
  have vars : Log.vars r.log = [] := Log.vars_of_isSetup fun e => isSetup_of_mem_seed
  refine ⟨⟨.start, ?_, ?_⟩, relaxed⟩
  · rw [relaxed, vars]
    rfl
  · rw [relaxed]
    exact List.nil_prefix

/-- A run that has room for the relaxation variables ends with its last stage. -/
theorem solve_of_room {f : Formula} {sat : σ} {hitter : τ}
    (room : SatOracle.numVars (seed f sat hitter).sat + f.soft.length ≤ maxVar) (mode : Mode)
    (o : RunOptions) :
    let ended := (seed f sat hitter).stages o (f.batches mode)
    let run := Run.solve f mode o sat hitter
    run.2 = ended.2 ∧ Ending.ofResult run.1 = ended.1 := by
  dsimp only
  rw [Run.solve]
  dsimp only
  rw [if_neg (Nat.not_lt_of_le room)]
  generalize (seed f sat hitter).stages o (f.batches mode) = result
  obtain ⟨ending, r⟩ := result
  cases ending <;> exact ⟨rfl, rfl⟩

theorem solve_of_no_room {f : Formula} {sat : σ} {hitter : τ}
    (full : maxVar < SatOracle.numVars (seed f sat hitter).sat + f.soft.length) (mode : Mode)
    (o : RunOptions) :
    Run.solve f mode o sat hitter = (.error (.tooManyVariables
      (SatOracle.numVars (seed f sat hitter).sat + f.soft.length)), seed f sat hitter) :=
  if_pos full

/-- The last calls of a run explain its result. -/
theorem solve_logged (f : Formula) (mode : Mode) (o : RunOptions) (sat : σ) (hitter : τ)
    (room : SatOracle.numVars (seed f sat hitter).sat + f.soft.length ≤ maxVar) :
    let run := Run.solve f mode o sat hitter
    run.2.Logged f o.minimize (seed f sat hitter).log ∧
      (Ending.ofResult run.1).Closes o.minimize run.2.log ∧
      ∀ sol, run.1 = .ok (.optimum sol) → run.2.relaxed.map Relaxation.soft = f.soft := by
  obtain ⟨logged, relaxed⟩ := seed_logged f o.minimize sat hitter
  have rest : (seed f sat hitter).relaxed.map Relaxation.soft ++ (f.batches mode).flatten =
      f.soft := by
    rw [relaxed, f.flatten_batches mode]
    rfl
  obtain ⟨logged', closes, all⟩ :=
    logged.stages (o := o) (ready_seed f sat hitter) ⟨[], (List.append_nil _).trans rest⟩
  have closes := closes (f.batches_ne_nil mode)
  obtain ⟨state, ending⟩ := solve_of_room room mode o
  rw [rest, ← ending, ← state] at all
  rw [← ending, ← state] at closes
  rw [← state] at logged'
  refine ⟨logged', closes, fun sol optimum => all ?_⟩
  rw [optimum]
  rfl

/-- With or without room, the calls of a run follow one another. -/
theorem solve_lawful (f : Formula) (mode : Mode) (o : RunOptions) (sat : σ) (hitter : τ) :
    Lawful f o.minimize (seed f sat hitter).log (Run.solve f mode o sat hitter).2.log := by
  by_cases room : SatOracle.numVars (seed f sat hitter).sat + f.soft.length ≤ maxVar
  · exact (solve_logged f mode o sat hitter room).1.lawful
  · rw [solve_of_no_room (Nat.lt_of_not_le room)]
    exact .start

theorem isSetup_of_no_room {sat : σ} {hitter : τ}
    (full : maxVar < SatOracle.numVars (seed f sat hitter).sat + f.soft.length) (mode : Mode)
    (o : RunOptions) : ∀ e ∈ (Run.solve f mode o sat hitter).2.log, e.IsSetup := by
  intro e mem
  rw [solve_of_no_room full] at mem
  exact isSetup_of_mem_seed mem

end Run

end MaxSat

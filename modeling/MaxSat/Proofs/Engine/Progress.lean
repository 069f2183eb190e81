import MaxSat.Engine.Playback
import MaxSat.Proofs.Engine.Replay

/-!
# Progress

Suppose that each hitting set of a run meets all cores recorded before it; the
SAT oracle may answer as it likes. A core is recorded only if its round has
assumed all of it, so it avoids a set that meets every earlier core, and no
earlier core is a part of it. There are fewer such cores than sets of soft
clauses. Without minimization every round but the last of a stage records one,
so `roundBound` is never reached, and no larger bound makes a difference.
-/

namespace MaxSat

/-- Each hitting set of the log meets the cores recorded before it. -/
def Log.Hitting (log : List Event) : Prop :=
  ∀ later set n before, log = later ++ .get set n :: before →
    ∀ c ∈ Log.cores before, ∃ v ∈ c.vars, v ∈ set

theorem Log.Hitting.tail {e : Event} {log : List Event} (hitting : Log.Hitting (e :: log)) :
    Log.Hitting log := by
  intro later set n before eq
  exact hitting (e :: later) set n before (by rw [eq, List.cons_append])

section Cores

variable {f : Formula} {minimize : Bool} {start log : List Event}

/-- A core is recorded with variables outside of the last hitting set. -/
theorem Event.Follows.hit_outside {c : Core}
    (follows : (Event.hit c).Follows f minimize log) :
    ∃ calls set n before, log = calls ++ .get set n :: before ∧
      Log.cores log = Log.cores before ∧ ∀ v ∈ c.vars, v ∉ set := by
  obtain ⟨set, core, before, blames, assumed, _, named, _⟩ := follows
  obtain ⟨calls, n, _, eq⟩ := blames.split
  refine ⟨calls, set, n, before, eq, blames.cores_eq, fun v mem => ?_⟩
  obtain ⟨w, _, outside, lit⟩ := Log.mem_assumptions.mp (assumed _ ((named v).mp mem))
  have same : w = v := congrArg Lit.var lit
  exact same ▸ outside

theorem Lawful.cores_new (lawful : Lawful f minimize start log) (setup : ∀ e ∈ start, e.IsSetup)
    (hitting : Log.Hitting log) :
    (Log.cores log).Pairwise fun old new => ∃ v ∈ old.vars, v ∉ new.vars := by
  induction lawful with
  | start =>
    rw [Log.cores_eq_nil fun c => setup (.hit c)]
    exact .nil
  | @call e log lawful follows ih =>
    have before := ih hitting.tail
    cases e with
    | hit c =>
      obtain ⟨calls, set, n, earlier, eq, cores, outside⟩ := follows.hit_outside
      have met := hitting.tail calls set n earlier eq
      rw [Log.cores_cons]
      refine List.pairwise_append.mpr ⟨before, List.pairwise_singleton _ _, ?_⟩
      -- the last hitting set meets the old core, and the new one avoids it
      intro old mem new same
      obtain ⟨v, inOld, inSet⟩ := met old (cores ▸ mem)
      refine ⟨v, inOld, fun inNew => outside v ?_ inSet⟩
      exact List.mem_singleton.mp same ▸ inNew
    | _ => simpa [Event.core?] using before

theorem Lawful.length_cores_lt (lawful : Lawful f minimize start log)
    (setup : ∀ e ∈ start, e.IsSetup) (hitting : Log.Hitting log) :
    (Log.cores log).length < 2 ^ f.soft.length :=
  (Core.length_lt_of_new (lawful.cores_new setup hitting) (lawful.cores_nonempty setup)
    (lawful.cores_inside setup)).trans_le
    (Nat.pow_le_pow_right (by decide) (lawful.length_vars_le setup))

end Cores

namespace Run

variable {σ τ : Type}

theorem coreMembers_error {kept : List Relaxation} {core : List Lit} {err : SolveError}
    (failed : coreMembers kept core = .error err) : ∃ l, err = .notAssumed l := by
  induction core with
  | nil => cases failed
  | cons l core ih =>
    rw [coreMembers] at failed
    cases found : kept.find? fun x => Lit.pos x.var == l with
    | none =>
      rw [found] at failed
      cases failed
      exact ⟨l, rfl⟩
    | some x =>
      rw [found] at failed
      cases rest : coreMembers kept core with
      | error e =>
        rw [rest] at failed
        cases failed
        exact ih rest
      | ok ms =>
        rw [rest] at failed
        cases failed

variable [SatOracle σ] [HittingOracle τ] {o : RunOptions} (plain : o.minimize = false)
include plain

theorem learn_plain (r : Run σ τ) (kept : List Relaxation) (core : List Lit) :
    (∃ ending, (r.learn o kept core).1 = .ended ending ∧ ending ≠ .failed .outOfRounds) ∨
      (r.learn o kept core).1 = .again ∧ (r.learn o kept core).2.cores = r.cores + 1 := by
  have same : r.shrink o core = (.ok core, r) := by simp [shrink, plain]
  rw [learn, same]
  cases core with
  | nil => exact .inl ⟨.infeasible, rfl, by simp⟩
  | cons l core =>
    dsimp only
    cases members : coreMembers kept (l :: core) with
    | error e =>
      obtain ⟨k, rfl⟩ := coreMembers_error members
      exact .inl ⟨_, rfl, by simp⟩
    | ok ms => exact .inr ⟨rfl, rfl⟩

/-- A round that does not end its stage records one core. It never runs out of rounds itself. -/
theorem round_plain (r : Run σ τ) :
    (∃ ending, (r.round o).1 = .ended ending ∧ ending ≠ .failed .outOfRounds) ∨
      (r.round o).1 = .again ∧ (r.round o).2.cores = r.cores + 1 := by
  have got : r.getSet.2.cores = r.cores := rfl
  rw [round]
  generalize r.getSet = result at got
  obtain ⟨set, r₁⟩ := result
  dsimp only at got ⊢
  cases set.find? fun v => (r₁.relaxation? v).isNone with
  | some v => exact .inl ⟨_, rfl, by simp⟩
  | none =>
    have asked : (r₁.ask (r₁.assumptions set)).2.cores = r₁.cores := rfl
    dsimp only
    generalize r₁.ask (r₁.assumptions set) = called at asked
    obtain ⟨reply, r₂⟩ := called
    dsimp only at asked
    cases reply with
    | sat => exact .inl ⟨_, rfl, by simp⟩
    | failed reason => exact .inl ⟨_, rfl, by simp⟩
    | unsat core =>
      cases core with
      | none => exact .inl ⟨_, rfl, by simp⟩
      | some core =>
        rw [← got, ← asked]
        exact learn_plain plain r₂ (r₂.kept set) core

/-- Out of rounds, a stage has recorded a core in each of them. -/
theorem converge_outOfRounds {n : Nat} {r : Run σ τ}
    (out : (converge o n r).1 = .failed .outOfRounds) :
    (converge o n r).2.cores = r.cores + n := by
  induction n generalizing r with
  | zero => rfl
  | succ n ih =>
    have step := round_plain plain r
    rw [converge] at out ⊢
    generalize r.round o = next at step out ⊢
    obtain ⟨step_, r'⟩ := next
    rcases step with ⟨ending, rfl, fair⟩ | ⟨rfl, more⟩
    · exact absurd out fair
    · dsimp only at more out ⊢
      rw [ih out, more]
      omega

theorem stages_outOfRounds {batches : List (List SoftClause)} {r : Run σ τ}
    (out : (stages o batches r).1 = .failed .outOfRounds) :
    o.rounds ≤ (stages o batches r).2.cores := by
  induction batches generalizing r with
  | nil => cases out
  | cons batch batches ih =>
    have stage (out : (r.stage o batch).1 = .failed .outOfRounds) :
        o.rounds ≤ (r.stage o batch).2.cores :=
      (converge_outOfRounds plain out).symm ▸ Nat.le_add_left _ _
    rw [stages] at out ⊢
    generalize r.stage o batch = result at stage out ⊢
    obtain ⟨ending, r'⟩ := result
    cases ending with
    | settled => exact ih out
    | infeasible => cases out
    | failed e => exact stage out

theorem solve_outOfRounds {f : Formula} {mode : Mode} {sat : σ} {hitter : τ}
    (out : (Run.solve f mode o sat hitter).1 = .error .outOfRounds) :
    o.rounds ≤ (Run.solve f mode o sat hitter).2.cores := by
  by_cases room : SatOracle.numVars (seed f sat hitter).sat + f.soft.length ≤ maxVar
  · obtain ⟨state, ending⟩ := solve_of_room room mode o
    rw [out] at ending
    rw [state]
    exact stages_outOfRounds plain ending.symm
  · rw [solve_of_no_room (Nat.lt_of_not_le room)] at out
    cases out

variable {o' : RunOptions} (plain' : o'.minimize = false)
include plain'

/-- How many rounds there may be matters to no round. -/
theorem round_congr (r : Run σ τ) : r.round o' = r.round o := by
  have same (kept : List Relaxation) (core : List Lit) (r : Run σ τ) :
      r.learn o' kept core = r.learn o kept core := by
    simp [learn, shrink, plain, plain']
  simp only [round, same]

theorem converge_more {n k : Nat} (le : n ≤ k) {r : Run σ τ}
    (fair : (converge o n r).1 ≠ .failed .outOfRounds) : converge o' k r = converge o n r := by
  induction n generalizing k r with
  | zero => exact absurd rfl fair
  | succ n ih =>
    obtain ⟨k, rfl⟩ : ∃ j, k = j + 1 := ⟨k - 1, by omega⟩
    rw [converge] at fair ⊢
    rw [converge, round_congr plain plain']
    generalize r.round o = next at fair ⊢
    obtain ⟨step, r'⟩ := next
    cases step with
    | ended ending => rfl
    | again => exact ih (by omega) fair

theorem stages_more (le : o.rounds ≤ o'.rounds) {batches : List (List SoftClause)} {r : Run σ τ}
    (fair : (stages o batches r).1 ≠ .failed .outOfRounds) :
    stages o' batches r = stages o batches r := by
  induction batches generalizing r with
  | nil => rfl
  | cons batch batches ih =>
    have stage (fair : (r.stage o batch).1 ≠ .failed .outOfRounds) :
        r.stage o' batch = r.stage o batch := converge_more plain plain' le fair
    rw [stages] at fair ⊢
    rw [stages]
    have same : r.stage o' batch = r.stage o batch := by
      apply stage
      intro out
      generalize r.stage o batch = result at fair out
      obtain ⟨ending, r'⟩ := result
      subst out
      exact fair rfl
    rw [same]
    generalize r.stage o batch = result at fair ⊢
    obtain ⟨ending, r'⟩ := result
    cases ending with
    | settled => exact ih fair
    | infeasible => rfl
    | failed e => rfl

theorem solve_more (le : o.rounds ≤ o'.rounds) {f : Formula} {mode : Mode} {sat : σ} {hitter : τ}
    (fair : (Run.solve f mode o sat hitter).1 ≠ .error .outOfRounds) :
    Run.solve f mode o' sat hitter = Run.solve f mode o sat hitter := by
  rw [Run.solve] at fair ⊢
  rw [Run.solve]
  dsimp only at fair ⊢
  split
  · rfl
  · rename_i room
    rw [if_neg room] at fair
    have same : (seed f sat hitter).stages o' (f.batches mode) =
        (seed f sat hitter).stages o (f.batches mode) := by
      apply stages_more plain plain' le
      intro out
      generalize (seed f sat hitter).stages o (f.batches mode) = result at fair out
      obtain ⟨ending, r⟩ := result
      subst out
      exact fair rfl
    rw [same]

end Run

/-- No recorded core contains one recorded before it, so there are fewer of them than sets of
soft clauses. A run without minimization ends within that many rounds, as it would with any
larger bound. -/
theorem Run.solve_makes_progress {σ τ : Type} [SatOracle σ] [HittingOracle τ] (f : Formula)
    (mode : Mode) (o : RunOptions) (sat : σ) (hitter : τ)
    (hitting : Log.Hitting (Run.solve f mode o sat hitter).2.log) :
    let run := Run.solve f mode o sat hitter
    let cores := Log.cores run.2.log
    cores.Pairwise (fun old new => ¬ old.vars ⊆ new.vars) ∧ cores.Nodup ∧
      cores.length ≤ 2 ^ f.soft.length - 1 ∧
      (o.minimize = false → 2 ^ f.soft.length ≤ o.rounds →
        run.1 ≠ .error .outOfRounds ∧
          ∀ o' : RunOptions, o'.minimize = false → o.rounds ≤ o'.rounds →
            Run.solve f mode o' sat hitter = run) := by
  intro run cores
  have lawful := solve_lawful f mode o sat hitter
  have setup : ∀ e ∈ (seed f sat hitter).log, e.IsSetup := fun e => isSetup_of_mem_seed
  have new := lawful.cores_new setup hitting
  have few := lawful.length_cores_lt setup hitting
  have apart : cores.Pairwise fun old new => ¬ old.vars ⊆ new.vars := by
    apply new.imp
    rintro old new ⟨v, inOld, notNew⟩ subset
    exact notNew (subset inOld)
  refine ⟨apart, ?_, Nat.le_sub_one_of_lt few, fun plain enough => ?_⟩
  · apply apart.imp
    rintro old new apart rfl
    exact apart (List.Subset.refl _)
  · have fair : run.1 ≠ .error .outOfRounds := by
      intro out
      have reached := solve_outOfRounds plain out
      rw [solve_cores] at reached
      omega
    exact ⟨fair, fun o' plain' le => solve_more plain plain' le fair⟩

/-- The hitting sets of a hitter meet all that it has recorded. -/
theorem Run.solve_hitting {σ : Type} [SatOracle σ] (f : Formula) (mode : Mode) (o : RunOptions)
    (sat : σ) : Log.Hitting (Run.solve f mode o sat ({} : Hitter)).2.log := by
  intro later set n before eq c mem
  have replayed := solve_replayed f mode o sat ({} : Hitter)
  have nonempty := (solve_lawful f mode o sat ({} : Hitter)).cores_nonempty
    fun e => isSetup_of_mem_seed
  rw [eq] at replayed nonempty
  rw [replayed.of_append.1]
  refine (Log.hitter_records fun d hd => nonempty d ?_).ask_hits mem
  simp [Log.cores_append, hd]

/-- A SAT oracle that finds everything unsatisfiable makes a run on two clauses that agree record
all of the three cores there can be. -/
theorem Run.solve_makes_progress_three_cores :
    let f : Formula := {
      numVars := 2
      inputVars := 2
      hard := []
      soft := [⟨[Lit.pos 1], 1, 0⟩, ⟨[Lit.pos 2], 2, 0⟩]
      numPartitions := 1
      topWeight := 4
      offset := 0
      comments := [] }
    let sat : SatScript := {
      numVars := 0
      replies := [.unsat (some [Lit.pos 4, Lit.pos 3]), .unsat (some [Lit.pos 4]),
        .unsat (some [Lit.pos 3]), .unsat (some [])] }
    let run := Run.solve f .flat { rounds := f.roundBound } sat ({} : Hitter)
    Log.Hitting run.2.log ∧ (Log.cores run.2.log).map Core.vars = [[3, 4], [4], [3]] ∧
      (Log.cores run.2.log).Pairwise (fun old new => ¬ old.vars ⊆ new.vars) ∧
      run.1 = .ok .infeasible ∧
      ∀ n, 4 ≤ n → Run.solve f .flat { rounds := n } sat ({} : Hitter) = run := by
  intro f sat
  dsimp only
  have hitting := Run.solve_hitting f .flat { rounds := f.roundBound } sat
  obtain ⟨apart, _, _, ends⟩ :=
    Run.solve_makes_progress f .flat { rounds := f.roundBound } sat ({} : Hitter) hitting
  refine ⟨hitting, by cbv, apart, by cbv, fun n le => ?_⟩
  exact (ends rfl (le_refl _)).2 { rounds := n } rfl le

end MaxSat

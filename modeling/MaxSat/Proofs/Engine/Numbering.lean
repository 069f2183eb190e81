import MaxSat.Engine.Playback
import MaxSat.Proofs.Engine.Replay

/-!
# How relaxation variables are numbered

An oracle that hands out the next id each time numbers the relaxation variables
one after the other, above the ids in use after seeding: the clauses that a run
adds are about ids in use, and so take no further ones. Nothing is asked of
its answers.
-/

namespace MaxSat

namespace Log

variable {log : List Event}

/-- The relaxation variables are numbered one after the other, above `base`. -/
def Numbered (base : Nat) (log : List Event) : Prop :=
  vars log = List.range' (base + 1) (vars log).length

section Numbered

variable {base : Nat} {later : List Event} (numbered : Numbered base (later ++ log))
include numbered

theorem Numbered.var_eq {i v : Nat} (var : (vars log)[i]? = some v) : v = base + 1 + i := by
  obtain ⟨more, eq⟩ := vars_append later log
  have found : (vars (later ++ log))[i]? = some v := by
    rw [eq, List.getElem?_append_left (List.getElem?_eq_some_iff.mp var).1]
    exact var
  rw [numbered] at found
  obtain ⟨_, value⟩ := List.getElem?_eq_some_iff.mp found
  rw [← value, List.getElem_range', Nat.one_mul]

theorem Numbered.assumptions_ascending (set : List Nat) :
    (assumptions log set).Pairwise fun a b => a.var < b.var := by
  obtain ⟨more, eq⟩ := vars_append later log
  have ascending : (vars (later ++ log)).Pairwise (· < ·) := by
    rw [numbered]
    exact List.pairwise_lt_range'
  rw [eq] at ascending
  exact List.pairwise_map.mpr ((List.pairwise_append.mp ascending).1.filter _)

end Numbered

end Log

/-- The oracle hands out the next id each time, and calls on ids in use take no other. -/
structure SatOracle.Consecutive (σ : Type) [SatOracle σ] : Prop where
  reserve : ∀ (s : σ) (n : Nat), n ≤ SatOracle.numVars (SatOracle.reserve s n)
  freshVar : ∀ s : σ, SatOracle.numVars s < maxVar →
    (SatOracle.freshVar s).1 = SatOracle.numVars s + 1 ∧
      SatOracle.numVars (SatOracle.freshVar s).2 = SatOracle.numVars s + 1
  addClause : ∀ (s : σ) (c : Clause), (∀ l ∈ c, l.var ≤ SatOracle.numVars s) →
    SatOracle.numVars (SatOracle.addClause s c) = SatOracle.numVars s
  solve : ∀ (s : σ) (ls : List Lit),
    SatOracle.numVars (SatOracle.solve s ls).2 = SatOracle.numVars s

theorem SatScript.consecutive : SatOracle.Consecutive SatScript where
  reserve s n := Nat.le_max_right s.numVars n
  freshVar _ _ := ⟨rfl, rfl⟩
  addClause _ _ _ := rfl
  solve s ls := by
    change (SatScript.solve s ls).2.numVars = s.numVars
    rw [SatScript.solve]
    split <;> rfl

namespace Run

variable {σ τ : Type} [SatOracle σ] {f : Formula} {base : Nat}

/-- The ids in use are counted by the log, up to one for each soft clause. -/
structure Counted (f : Formula) (base : Nat) (r : Run σ τ) : Prop where
  numVars : (Log.vars r.log).length ≤ f.soft.length →
    SatOracle.numVars r.sat = base + (Log.vars r.log).length
  vars : ∀ i v, i < f.soft.length → (Log.vars r.log)[i]? = some v → v = base + 1 + i

variable (law : SatOracle.Consecutive σ) (wellFormed : f.WellFormed)
include law wellFormed

theorem numVars_seed (sat : σ) (hitter : τ) :
    f.numVars ≤ SatOracle.numVars (seed f sat hitter).sat := by
  rw [seed_eq]
  refine List.foldlRecOn (motive := fun s : σ => f.numVars ≤ SatOracle.numVars s) f.hard _
    (law.reserve sat f.numVars) ?_
  intro s above h mem
  rw [law.addClause]
  · exact above
  · intro l hl
    exact Nat.le_trans (wellFormed.hardIds h mem l hl) above

theorem Counted.relax (above : f.numVars ≤ base) (room : base + f.soft.length ≤ maxVar)
    {r : Run σ τ} (counted : r.Counted f base) {s : SoftClause} (mem : s ∈ f.soft) :
    (r.relax s).Counted f base := by
  have vars : Log.vars (r.relax s).log = Log.vars r.log ++ [(SatOracle.freshVar r.sat).1] := by
    simp [Run.relax, Run.addClause, Run.freshVar, Event.newVar?]
  -- with a soft clause left there is an id left for it
  have fresh (more : (Log.vars r.log).length < f.soft.length) :
      (SatOracle.freshVar r.sat).1 = base + 1 + (Log.vars r.log).length ∧
        SatOracle.numVars (SatOracle.freshVar r.sat).2 = base + 1 + (Log.vars r.log).length := by
    have count := counted.numVars (Nat.le_of_lt more)
    obtain ⟨var, next⟩ := law.freshVar r.sat (by omega)
    omega
  constructor
  · intro le
    rw [vars, List.length_append, List.length_singleton] at le ⊢
    obtain ⟨var, next⟩ := fresh (by omega)
    change SatOracle.numVars (SatOracle.addClause (SatOracle.freshVar r.sat).2
      (s.clause ++ [Lit.neg (SatOracle.freshVar r.sat).1])) = _
    rw [law.addClause]
    · omega
    · intro l hl
      rcases List.mem_append.mp hl with hl | hl
      · have := wellFormed.softIds s mem l hl
        omega
      · have same : l.var = (SatOracle.freshVar r.sat).1 :=
          congrArg Lit.var (List.mem_singleton.mp hl)
        omega
  · intro i v inside found
    rw [vars] at found
    by_cases old : i < (Log.vars r.log).length
    · rw [List.getElem?_append_left old] at found
      exact counted.vars i v inside found
    · obtain ⟨lt, value⟩ := List.getElem?_eq_some_iff.mp found
      rw [List.length_append, List.length_singleton] at lt
      obtain rfl : i = (Log.vars r.log).length := by omega
      rw [← value, List.getElem_concat_length rfl]
      exact (fresh inside).1

theorem stable_counted [HittingOracle τ] (above : f.numVars ≤ base)
    (room : base + f.soft.length ≤ maxVar) :
    Stable f.soft fun r : Run σ τ => r.Counted f base where
  relax counted _ mem := counted.relax law wellFormed above room mem
  getSet counted := by
    constructor
    · simpa [Run.getSet, Event.newVar?] using counted.numVars
    · simpa [Run.getSet, Event.newVar?] using counted.vars
  ask {r} counted ls := by
    constructor
    · intro le
      have same : SatOracle.numVars (r.ask ls).2.sat = SatOracle.numVars r.sat := law.solve r.sat ls
      simp only [Run.ask, Log.vars_cons, Event.newVar?, Option.toList_none, List.append_nil] at le ⊢
      exact same.trans (counted.numVars le)
    · simpa [Run.ask, Event.newVar?] using counted.vars
  record counted c := by
    constructor
    · simpa [Run.record, Event.newVar?] using counted.numVars
    · simpa [Run.record, Event.newVar?] using counted.vars

/-- Whatever else such an oracle answers, its relaxation variables are numbered. -/
theorem solve_numbered [HittingOracle τ] {sat : σ} {hitter : τ} (mode : Mode) (o : RunOptions)
    (room : SatOracle.numVars (seed f sat hitter).sat + f.soft.length ≤ maxVar) :
    Log.Numbered (SatOracle.numVars (seed f sat hitter).sat)
      (Run.solve f mode o sat hitter).2.log := by
  have setup : ∀ e ∈ (seed f sat hitter).log, e.IsSetup := fun e => isSetup_of_mem_seed
  have none_ := Log.vars_of_isSetup setup
  have start : (seed f sat hitter).Counted f (SatOracle.numVars (seed f sat hitter).sat) := by
    constructor
    · simp [none_]
    · simp [none_]
  have above := numVars_seed law wellFormed sat hitter
  have counted := (stable_counted law wellFormed above room).solve start mode o
  have few := (solve_lawful f mode o sat hitter).length_vars_le setup
  refine List.ext_getElem (by simp) fun i inside _ => ?_
  rw [List.getElem_range', Nat.one_mul]
  exact counted.vars i _ (by omega) (List.getElem?_eq_getElem inside)

end Run

end MaxSat

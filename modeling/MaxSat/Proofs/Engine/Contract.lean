import MaxSat.Proofs.Engine.Numbering

/-!
# What a run makes sure of

Oracles may answer as they like. An answer that they cannot rightly give is the
last call of a run, and the result is the error that names it; so whatever is
assumed or recorded is about clauses that the run has relaxed itself. The one
thing that is not checked is how the SAT oracle numbers its variables: here
they are taken to come without a gap.
-/

namespace MaxSat

namespace Log

variable {minimize : Bool} {set : List Nat} {asked core : List Lit} {before log : List Event}

theorem Shrinking.inv {e : Event}
    (shrinking : Shrinking minimize set asked core before (e :: log)) :
    (e = .solve asked (.unsat (some core)) ∧ ∃ n, log = .get set n :: before) ∨
      (e.Retries core ∧ Shrinking minimize set asked core before log) := by
  obtain ⟨wanted, long, calls, n, all, eq⟩ := shrinking
  cases calls with
  | nil =>
    obtain ⟨rfl, rfl⟩ := List.cons.inj eq
    exact .inl ⟨rfl, n, rfl⟩
  | cons k calls =>
    obtain ⟨rfl, rfl⟩ := List.cons.inj eq
    exact .inr ⟨all e List.mem_cons_self, wanted, long, calls, n,
      fun k mem => all k (List.mem_cons_of_mem e mem), rfl⟩

theorem Shrinking.isSolve {e : Event}
    (shrinking : Shrinking minimize set asked core before (e :: log)) : e.IsSolve := by
  rcases shrinking.inv with ⟨rfl, _⟩ | ⟨retries, _⟩
  · trivial
  · exact isSolve_of_retries retries

theorem Blames.isSolve {e : Event} (blames : Blames minimize set asked core before (e :: log)) :
    e.IsSolve := by
  cases blames <;> trivial

theorem Shrinking.unique {set' : List Nat} {asked' core' : List Lit} {before' : List Event}
    (one : Shrinking minimize set asked core before log)
    (other : Shrinking minimize set' asked' core' before' log) : asked = asked' := by
  induction log with
  | nil =>
    obtain ⟨_, _, calls, n, _, eq⟩ := one
    simp at eq
  | cons e log ih =>
    rcases one.inv with ⟨rfl, n, rfl⟩ | ⟨_, rest⟩
    · rcases other.inv with ⟨eq, _⟩ | ⟨_, rest'⟩
      · cases eq
        rfl
      · cases rest'.isSolve
    · rcases other.inv with ⟨_, n, rfl⟩ | ⟨_, rest'⟩
      · cases rest.isSolve
      · exact ih rest rest'

/-- The calls tell the core that a round is left with, and what it had asked for. -/
theorem Blames.unique {set' : List Nat} {asked' core' : List Lit} {before' : List Event}
    (one : Blames minimize set asked core before log)
    (other : Blames minimize set' asked' core' before' log) : asked = asked' ∧ core = core' := by
  cases one with
  | answer short =>
    cases other with
    | answer short' => exact ⟨rfl, rfl⟩
    | shrunk shrinking last => cases shrinking.isSolve
  | shrunk shrinking last =>
    cases other with
    | answer short' => cases shrinking.isSolve
    | shrunk shrinking' last' => exact ⟨shrinking.unique shrinking', rfl⟩

theorem Blames.past (blames : Blames minimize set asked core before log) :
    ∃ e ∈ log, ¬ e.IsSetup := by
  cases blames <;> exact ⟨_, List.mem_cons_self, id⟩

theorem Blames.not_ready (blames : Blames minimize set asked core before log) : ¬ Ready log := by
  intro ready
  cases blames with
  | answer short => exact ready
  | @shrunk whole reply log shrinking last =>
    cases log with
    | nil =>
      cases reply <;> exact ready
    | cons e log =>
      have solve := shrinking.isSolve
      cases e with
      | solve ls reply' => cases reply <;> exact ready
      | _ => cases solve

/-- The latest call got an answer that no oracle can rightly give, or none at all. -/
inductive Offends (minimize : Bool) : List Event → SolveError → Prop
  | unknown {set : List Nat} {n v : Nat} {before : List Event}
      (first : (set.find? fun v => !(vars before).contains v) = some v) :
      Offends minimize (.get set n :: before) (.unknownVariable v)
  | failing {ls : List Lit} {reason : String} {before : List Event} :
      Offends minimize (.solve ls (.failed reason) :: before) (.oracle reason)
  | missing {asked : List Lit} {set : List Nat} {n : Nat} {before : List Event} :
      Offends minimize (.solve asked (.unsat none) :: .get set n :: before) .missingCore
  | foreign {asked core : List Lit} {set : List Nat} {n : Nat} {before : List Event} {l : Lit}
      (short : minimize = true → core.length ≤ 1)
      (first : (core.find? fun l => !asked.contains l) = some l) :
      Offends minimize (.solve asked (.unsat (some core)) :: .get set n :: before) (.notAssumed l)

section Offends

variable {err : SolveError} (offends : Offends minimize log err)
include offends

theorem Offends.past : ∃ e ∈ log, ¬ e.IsSetup := by
  cases offends <;> exact ⟨_, List.mem_cons_self, id⟩

theorem Offends.not_ready : ¬ Ready log := by
  cases offends <;> exact id

theorem Offends.not_shrinking : ¬ Shrinking minimize set asked core before log := by
  intro shrinking
  cases offends with
  | unknown first => cases shrinking.isSolve
  | failing =>
    rcases shrinking.inv with ⟨eq, _⟩ | ⟨retries, _⟩
    · cases eq
    · exact retries
  | missing =>
    rcases shrinking.inv with ⟨eq, _⟩ | ⟨_, rest⟩
    · cases eq
    · cases rest.isSolve
  | foreign short first =>
    rcases shrinking.inv with ⟨eq, _⟩ | ⟨_, rest⟩
    · cases eq
      have := short shrinking.wanted
      have := shrinking.long
      omega
    · cases rest.isSolve

/-- A core that a round is left with offends by its first literal that was not assumed. -/
theorem Offends.of_blames (blames : Blames minimize set asked core before log) :
    ∃ l, (core.find? fun l => !asked.contains l) = some l ∧ err = .notAssumed l := by
  cases offends with
  | unknown first => cases blames
  | failing =>
    cases blames with
    | shrunk shrinking last => cases last
  | missing =>
    cases blames with
    | shrunk shrinking last => cases shrinking.isSolve
  | foreign short first =>
    cases blames with
    | answer short' => exact ⟨_, first, rfl⟩
    | shrunk shrinking last => cases shrinking.isSolve

/-- No call comes after such an answer. -/
theorem Offends.not_follows {f : Formula} (e : Event) : ¬ e.Follows f minimize log := by
  intro follows
  cases e with
  | reserve n after => exact follows
  | newVar v => exact offends.not_ready follows.1
  | add c =>
    obtain ⟨v, before, s, rfl, _⟩ := follows
    cases offends
  | get set n => exact offends.not_ready follows
  | solve ls reply =>
    rcases follows with ⟨set, n, before, rfl, known, _⟩ | ⟨set, asked, core, before, shrinking, _⟩
    · cases offends with
      | unknown first =>
        have outside := List.find?_some first
        simp [known _ (List.mem_of_find?_eq_some first)] at outside
    · exact offends.not_shrinking shrinking
  | hit c =>
    obtain ⟨set, core, before, blames, assumed, _⟩ := follows
    obtain ⟨l, first, _⟩ := offends.of_blames blames
    have outside := List.find?_some first
    simp [assumed l (List.mem_of_find?_eq_some first)] at outside

/-- A stage that ends with such an answer ends with the error for it. -/
theorem Offends.ending_eq {ending : Ending} (closes : ending.Closes minimize log) :
    ending = .failed err := by
  cases closes with
  | settled => cases offends
  | infeasible blames =>
    obtain ⟨l, first, _⟩ := offends.of_blames blames
    cases first
  | unknown first =>
    cases offends with
    | unknown first' =>
      rw [first] at first'
      cases first'
      rfl
  | failing =>
    cases offends
    rfl
  | missing =>
    cases offends
    rfl
  | foreign blames first =>
    obtain ⟨k, first', rfl⟩ := offends.of_blames blames
    rw [first] at first'
    cases first'
    rfl
  | rounds ready => exact absurd ready offends.not_ready
  | calls shrinking => exact absurd shrinking offends.not_shrinking

end Offends

/-- A round that is left with a core of which a literal was not assumed goes on to shrink it, or
the run ends. -/
theorem Blames.refused {f : Formula} {l : Lit}
    (blames : Blames minimize set asked core before log)
    (first : (core.find? fun l => !asked.contains l) = some l) {e : Event}
    (follows : e.Follows f minimize log) : e.IsSolve := by
  cases e with
  | reserve n after => cases follows
  | newVar v => exact absurd follows.1 blames.not_ready
  | add c =>
    obtain ⟨v, before, s, rfl, _⟩ := follows
    cases blames
  | get set n => exact absurd follows blames.not_ready
  | solve ls reply => trivial
  | hit c =>
    obtain ⟨set', core', before', blames', assumed, _⟩ := follows
    obtain ⟨rfl, rfl⟩ := blames.unique blames'
    have outside := List.find?_some first
    simp [assumed l (List.mem_of_find?_eq_some first)] at outside

theorem Blames.ending_eq {l : Lit} (blames : Blames minimize set asked core before log)
    (first : (core.find? fun l => !asked.contains l) = some l) {ending : Ending}
    (closes : ending.Closes minimize log) :
    ending = .failed (.notAssumed l) ∨ ending = .failed .outOfRounds := by
  cases closes with
  | settled => exact absurd trivial blames.not_ready
  | infeasible blames' =>
    obtain ⟨rfl, rfl⟩ := blames.unique blames'
    cases first
  | unknown _ => cases blames.isSolve
  | failing =>
    cases blames with
    | shrunk shrinking last => cases last
  | missing =>
    cases blames with
    | shrunk shrinking last => cases shrinking.isSolve
  | foreign blames' first' =>
    obtain ⟨rfl, rfl⟩ := blames.unique blames'
    rw [first] at first'
    cases first'
    exact .inl rfl
  | rounds ready => exact .inr rfl
  | calls shrinking => exact .inr rfl

end Log

theorem Event.Follows.add_of_newVar {f : Formula} {minimize : Bool} {v : Nat} {log : List Event}
    {e : Event} (follows : e.Follows f minimize (.newVar v :: log)) :
    ∃ s, f.soft[(Log.vars log).length]? = some s ∧ e = .add (s.clause ++ [Lit.neg v]) := by
  cases e with
  | reserve n after => cases follows
  | newVar w => cases follows.1
  | add c =>
    obtain ⟨w, before, s, eq, soft, rfl⟩ := follows
    cases eq
    exact ⟨s, soft, rfl⟩
  | get set n => cases follows
  | solve ls reply =>
    rcases follows with ⟨set, n, before, eq, _⟩ | ⟨set, asked, core, before, shrinking, _⟩
    · cases eq
    · cases shrinking.isSolve
  | hit c =>
    obtain ⟨set, core, before, blames, _⟩ := follows
    cases blames.isSolve

theorem Ending.not_closes_newVar {minimize : Bool} {v : Nat} {log : List Event} (ending : Ending) :
    ¬ ending.Closes minimize (.newVar v :: log) := by
  intro closes
  cases closes with
  | infeasible blames => cases blames.isSolve
  | foreign blames _ => cases blames.isSolve
  | rounds ready => exact ready
  | calls shrinking => cases shrinking.isSolve

theorem Ending.ofResult_eq_failed {result : Except SolveError Outcome} {err : SolveError}
    (eq : Ending.ofResult result = .failed err) : result = .error err := by
  cases result with
  | error e =>
    cases eq
    rfl
  | ok outcome => cases outcome <;> cases eq

/-- What a run makes sure of, whatever it is answered, by its log and its result. -/
structure Run.Contract (f : Formula) (minimize : Bool) (base : Nat)
    (result : Except SolveError Outcome) (log : List Event) : Prop where
  /-- Each variable is the next one, and goes at once into the next soft clause. -/
  relaxed {later before : List Event} {v : Nat} (eq : log = later ++ .newVar v :: before) :
    v = base + 1 + (Log.vars before).length ∧ v ≤ maxVar ∧
      ∃ s more, f.soft[(Log.vars before).length]? = some s ∧
        later = more ++ [.add (s.clause ++ [Lit.neg v])]
  complete {sol : Solution} (optimum : result = .ok (.optimum sol)) :
    (Log.vars log).length = f.soft.length
  /-- What is assumed after a hitting set are the variables outside of it. Calls that do not come
  after one shrink a core. -/
  asked {later before : List Event} {ls : List Lit} {reply : Reply}
    (eq : log = later ++ .solve ls reply :: before) :
    (∃ set n earlier, before = .get set n :: earlier ∧ (∀ v ∈ set, v ∈ Log.vars earlier) ∧
      ls = Log.assumptions earlier set ∧ ls.Pairwise fun a b => a.var < b.var) ∨
    ∃ set asked core earlier, Log.Shrinking minimize set asked core earlier before ∧
      ls.Sublist core
  /-- A recorded core names variables that its round assumed, each under the weight of the soft
  clause that it relaxes, and the core that its round was left with has no other literals. -/
  recorded {later before : List Event} {c : Core} (eq : log = later ++ .hit c :: before) :
    c.vars ≠ [] ∧ ∃ set core earlier,
      Log.Blames minimize set (Log.assumptions earlier set) core earlier before ∧
        (∀ l ∈ core, l ∈ Log.assumptions earlier set) ∧ (∀ v, v ∈ c.vars ↔ Lit.pos v ∈ core) ∧
        ∀ m ∈ c.members, ∃ i s, f.soft[i]? = some s ∧ m = (base + 1 + i, s.weight)
  /-- An answer that breaks the contract is the last one. -/
  enforced {later bad : List Event} {err : SolveError} (eq : log = later ++ bad)
    (offends : Log.Offends minimize bad err) : later = [] ∧ result = .error err
  /-- So is what is left of a core, unless shrinking goes on. -/
  refused {later bad before : List Event} {set : List Nat} {asked core : List Lit} {l : Lit}
    (eq : log = later ++ bad) (blames : Log.Blames minimize set asked core before bad)
    (first : (core.find? fun l => !asked.contains l) = some l) :
    (∃ more e, later = more ++ [e] ∧ e.IsSolve) ∨
      later = [] ∧ (result = .error (.notAssumed l) ∨ result = .error .outOfRounds)
  /-- There is no error without such an answer. -/
  explained {err : SolveError} (failed : result = .error err) :
    (Ending.failed err).Closes minimize log

namespace Run

variable {σ τ : Type} [SatOracle σ] [HittingOracle τ]

omit [SatOracle σ] [HittingOracle τ] in
theorem contract_of_logged {f : Formula} {minimize : Bool} {base : Nat} {start : List Event}
    {r : Run σ τ} {result : Except SolveError Outcome} (logged : r.Logged f minimize start)
    (setup : ∀ e ∈ start, e.IsSetup) (closes : (Ending.ofResult result).Closes minimize r.log)
    (all : ∀ sol, result = .ok (.optimum sol) → r.relaxed.map Relaxation.soft = f.soft)
    (room : base + f.soft.length ≤ maxVar) (numbered : Log.Numbered base r.log) :
    Contract f minimize base result r.log where
  relaxed {later before v} eq := by
    have follows := logged.lawful.follows_of_setup setup eq id
    have last : (Log.vars (.newVar v :: before))[(Log.vars before).length]? = some v := by
      simp [Event.newVar?]
    have var := (eq ▸ numbered).var_eq last
    refine ⟨var, by have := follows.2; omega, ?_⟩
    rcases logged.lawful.next setup eq ⟨_, List.mem_cons_self, id⟩ with rfl | ⟨more, e, rfl, next⟩
    · rw [eq] at closes
      exact absurd closes (Ending.not_closes_newVar _)
    · obtain ⟨s, soft, rfl⟩ := next.add_of_newVar
      exact ⟨s, more, soft, rfl⟩
  complete {sol} optimum := by
    rw [← all sol optimum, ← logged.vars, List.length_map, List.length_map]
  asked {later before ls reply} eq := by
    rcases logged.lawful.follows_of_setup setup eq id with
      ⟨set, n, earlier, rfl, known, rfl⟩ | shrinks
    · -- the numbering of the whole log is also that of its beginning
      have split : later ++ .solve (Log.assumptions earlier set) reply :: .get set n :: earlier =
          (later ++ [.solve (Log.assumptions earlier set) reply, .get set n]) ++ earlier := by simp
      rw [eq, split] at numbered
      exact .inl ⟨set, n, earlier, rfl, known, rfl, numbered.assumptions_ascending set⟩
    · exact .inr shrinks
  recorded {later before c} eq := by
    obtain ⟨set, core, earlier, blames, assumed, nonempty, named, members⟩ :=
      logged.lawful.follows_of_setup setup eq id
    refine ⟨nonempty, set, core, earlier, blames, assumed, named, fun m mem => ?_⟩
    obtain ⟨s, ⟨i, var, soft⟩, weight⟩ := members m mem
    obtain ⟨calls, n, _, rfl⟩ := blames.split
    have split : later ++ .hit c :: (calls ++ .get set n :: earlier) =
        (later ++ .hit c :: (calls ++ [.get set n])) ++ earlier := by simp
    rw [eq, split] at numbered
    exact ⟨i, s, soft, Prod.ext (numbered.var_eq var) weight⟩
  enforced {later bad err} eq offends := by
    rcases logged.lawful.next setup eq offends.past with rfl | ⟨more, e, rfl, next⟩
    · rw [eq] at closes
      exact ⟨rfl, Ending.ofResult_eq_failed (offends.ending_eq closes)⟩
    · exact absurd next (offends.not_follows e)
  refused {later bad before set asked core l} eq blames first := by
    rcases logged.lawful.next setup eq blames.past with rfl | ⟨more, e, rfl, next⟩
    · rw [eq] at closes
      refine .inr ⟨rfl, ?_⟩
      rcases blames.ending_eq first closes with ended | ended
      · exact .inl (Ending.ofResult_eq_failed ended)
      · exact .inr (Ending.ofResult_eq_failed ended)
    · exact .inl ⟨more, e, rfl, blames.refused first next⟩
  explained {err} failed := by
    rw [failed] at closes
    exact closes

/-- A run is refused exactly if a variable for each soft clause does not fit, and then before it
asks for anything. Any other run keeps its contract on every oracle that numbers its variables
one after the other, whatever it and the hitting-set oracle answer. -/
theorem solve_keeps_contract (f : Formula) (mode : Mode) (o : RunOptions) (sat : σ) (hitter : τ) :
    let base := SatOracle.numVars (seed f sat hitter).sat
    let run := Run.solve f mode o sat hitter
    (∀ n, run.1 = .error (.tooManyVariables n) ↔ n = base + f.soft.length ∧ maxVar < n) ∧
      (maxVar < base + f.soft.length → ∀ e ∈ run.2.log, e.IsSetup) ∧
      (base + f.soft.length ≤ maxVar → Log.Numbered base run.2.log →
        Contract f o.minimize base run.1 run.2.log) := by
  intro base run
  by_cases room : base + f.soft.length ≤ maxVar
  · obtain ⟨logged, closes, all⟩ := solve_logged f mode o sat hitter room
    refine ⟨fun n => ⟨fun refused => ?_, by omega⟩, fun full => by omega, fun _ numbered =>
      contract_of_logged logged (fun e => isSetup_of_mem_seed) closes all room numbered⟩
    change (Ending.ofResult run.1).Closes o.minimize run.2.log at closes
    rw [refused] at closes
    generalize run.2.log = log at closes
    cases closes
  · have full : maxVar < base + f.soft.length := Nat.lt_of_not_le room
    have refused : run.1 = .error (.tooManyVariables (base + f.soft.length)) :=
      congrArg Prod.fst (solve_of_no_room full mode o)
    rw [refused]
    refine ⟨fun n => ⟨?_, ?_⟩, fun _ => isSetup_of_no_room full mode o,
      fun fits => absurd fits room⟩
    · rintro ⟨⟩
      exact ⟨rfl, full⟩
    · rintro ⟨rfl, _⟩
      rfl

/-- The first core has a literal that was not assumed, but loses it before it is recorded. The
second one names a variable of the hitting set and ends the run. -/
theorem solve_keeps_contract_foreign_literals :
    let f : Formula := {
      numVars := 2
      inputVars := 2
      hard := []
      soft := [⟨[Lit.pos 1], 1, 0⟩, ⟨[Lit.pos 2], 2, 0⟩]
      numPartitions := 1
      topWeight := 4
      offset := 0
      comments := [] }
    let sat : SatScript := {
      numVars := 0
      replies := [.unsat (some [Lit.pos 4, Lit.neg 1, Lit.pos 3]), .sat [],
        .unsat (some [Lit.pos 3, Lit.pos 4]), .sat [], .unsat none, .unsat (some [Lit.pos 3])] }
    let hitter : HittingScript := { sets := [[], [3]] }
    let run := Run.solve f .flat { minimize := true, rounds := f.roundBound } sat hitter
    Log.Numbered 2 run.2.log ∧ Contract f true 2 run.1 run.2.log ∧
      Log.cores run.2.log = [⟨[(3, 1), (4, 2)]⟩] ∧ run.1 = .error (.notAssumed (Lit.pos 3)) := by
  intro f sat hitter
  dsimp only
  have wellFormed : f.WellFormed := by constructor <;> decide
  have room : SatOracle.numVars (seed f sat hitter).sat + f.soft.length ≤ maxVar := by
    cbv
  have numbered := solve_numbered SatScript.consecutive wellFormed .flat
    { minimize := true, rounds := f.roundBound } room
  obtain ⟨_, _, keeps⟩ := solve_keeps_contract f .flat
    { minimize := true, rounds := f.roundBound } sat hitter
  exact ⟨numbered, keeps room numbered, by cbv, by cbv⟩

end Run

end MaxSat

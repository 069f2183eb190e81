import Mathlib.Data.List.Forall2
import MaxSat.Proofs.Engine.Logged
import MaxSat.Proofs.Oracle.Exhaustive

/-!
# Two runs side by side

Two runs, on the same or on different formulas and oracles, are in lockstep if
each round takes the same step in both and leaves related states. Then they end
alike. What the relation says is open, and it may change with the soft clauses
that are still to enter.

`Lockstep` asks for this of whole rounds, so that they may differ in their
calls. `Parallel` asks for it of single calls, which get the same answers on
both sides; rounds are then in lockstep. `Awaits` is what relations between runs
on the exhaustive solver build on: it says of one run what has entered so far.
-/

namespace MaxSat

/-- The same error, no solution in both, or solutions that are related. -/
inductive Outcome.Alike (S : Solution → Solution → Prop) :
    Except SolveError Outcome → Except SolveError Outcome → Prop
  | error (e : SolveError) : Alike S (.error e) (.error e)
  | infeasible : Alike S (.ok .infeasible) (.ok .infeasible)
  | optimum {one other : Solution} (solutions : S one other) :
      Alike S (.ok (.optimum one)) (.ok (.optimum other))

namespace Outcome.Alike

theorem eq {one other : Except SolveError Outcome} (alike : Outcome.Alike Eq one other) :
    one = other := by
  cases alike with
  | error e => rfl
  | infeasible => rfl
  | optimum same => rw [same]

variable {S : Solution → Solution → Prop} {other : Except SolveError Outcome}

theorem of_infeasible (alike : Alike S (.ok .infeasible) other) : other = .ok .infeasible := by
  cases alike
  rfl

theorem of_optimum {sol : Solution} (alike : Alike S (.ok (.optimum sol)) other) :
    ∃ sol', other = .ok (.optimum sol') ∧ S sol sol' := by
  cases alike with
  | optimum solutions => exact ⟨_, rfl, solutions⟩

end Outcome.Alike

namespace Run

variable {σ τ σ' τ' : Type} [SatOracle σ] [HittingOracle τ] [SatOracle σ'] [HittingOracle τ']

/-- `R rest rest' r r'` relates the states of two runs that `rest` and `rest'` have still to
enter. -/
structure Lockstep (o o' : RunOptions)
    (R : List SoftClause → List SoftClause → Run σ τ → Run σ' τ' → Prop) : Prop where
  relax : ∀ {s s' rest rest' r r'}, R (s :: rest) (s' :: rest') r r' →
    R rest rest' (r.relax s) (r'.relax s')
  round : ∀ {rest rest' r r'}, R rest rest' r r' →
    (r'.round o').1 = (r.round o).1 ∧ R rest rest' (r.round o).2 (r'.round o').2

namespace Lockstep

variable {o o' : RunOptions}
  {R : List SoftClause → List SoftClause → Run σ τ → Run σ' τ' → Prop}
  (lockstep : Lockstep o o' R) {rest rest' : List SoftClause}
include lockstep

theorem converge (n : Nat) {r : Run σ τ} {r' : Run σ' τ'} (related : R rest rest' r r') :
    (Run.converge o' n r').1 = (Run.converge o n r).1 ∧
      R rest rest' (Run.converge o n r).2 (Run.converge o' n r').2 := by
  induction n generalizing r r' with
  | zero => exact ⟨rfl, related⟩
  | succ n ih =>
    have next := lockstep.round related
    rw [Run.converge, Run.converge]
    generalize r.round o = one at next
    generalize r'.round o' = other at next
    obtain ⟨step, r₁⟩ := one
    obtain ⟨step', r₁'⟩ := other
    obtain ⟨rfl, next⟩ := next
    cases step' with
    | ended ending => exact ⟨rfl, next⟩
    | again => exact ih next

theorem foldl_relax {batch batch' : List SoftClause} (length : batch'.length = batch.length)
    {r : Run σ τ} {r' : Run σ' τ'} (related : R (batch ++ rest) (batch' ++ rest') r r') :
    R rest rest' (batch.foldl Run.relax r) (batch'.foldl Run.relax r') := by
  induction batch generalizing batch' r r' with
  | nil =>
    obtain rfl := List.length_eq_zero_iff.mp length
    exact related
  | cons s batch ih =>
    cases batch' with
    | nil => cases length
    | cons s' batch' => exact ih (Nat.succ.inj length) (lockstep.relax related)

theorem stages (rounds : o'.rounds = o.rounds) {batches batches' : List (List SoftClause)}
    (lengths : batches'.map List.length = batches.map List.length) {r : Run σ τ}
    {r' : Run σ' τ'} (related : R batches.flatten batches'.flatten r r') :
    (Run.stages o' batches' r').1 = (Run.stages o batches r).1 ∧
      ∃ rest rest', R rest rest' (Run.stages o batches r).2 (Run.stages o' batches' r').2 := by
  induction batches generalizing batches' r r' with
  | nil =>
    obtain rfl : batches' = [] := by simpa using lengths
    exact ⟨rfl, [], [], related⟩
  | cons batch batches ih =>
    cases batches' with
    | nil => cases lengths
    | cons batch' batches' =>
      rw [List.map_cons, List.map_cons] at lengths
      obtain ⟨length, lengths⟩ := List.cons.inj lengths
      have entered := lockstep.foldl_relax length related
      have ended := lockstep.converge o.rounds entered
      rw [Run.stages, Run.stages, Run.stage, Run.stage, rounds]
      generalize Run.converge o o.rounds (batch.foldl Run.relax r) = one at ended
      generalize Run.converge o' o.rounds (batch'.foldl Run.relax r') = other at ended
      obtain ⟨ending, r₁⟩ := one
      obtain ⟨ending', r₁'⟩ := other
      obtain ⟨rfl, next⟩ := ended
      cases ending' with
      | settled => exact ih lengths next
      | infeasible => exact ⟨rfl, _, _, next⟩
      | failed e => exact ⟨rfl, _, _, next⟩

/-- If the seeded runs are related and as many clauses enter in each stage, the results are
alike. -/
theorem solve (rounds : o'.rounds = o.rounds) {f f' : Formula} {mode mode' : Mode}
    (lengths : (f'.batches mode').map List.length = (f.batches mode).map List.length)
    {sat : σ} {sat' : σ'} {hitter : τ} {hitter' : τ'}
    (numVars : SatOracle.numVars (seed f' sat' hitter').sat =
      SatOracle.numVars (seed f sat hitter).sat)
    (related : R f.soft f'.soft (seed f sat hitter) (seed f' sat' hitter'))
    {S : Solution → Solution → Prop}
    (finish : ∀ {rest rest' r r'}, R rest rest' r r' →
      S (r.finish f (f.batches mode).length) (r'.finish f' (f'.batches mode').length)) :
    let one := Run.solve f mode o sat hitter
    let other := Run.solve f' mode' o' sat' hitter'
    Outcome.Alike S one.1 other.1 ∧ ∃ rest rest', R rest rest' one.2 other.2 := by
  have count : f'.soft.length = f.soft.length := by
    rw [← f.flatten_batches mode, ← f'.flatten_batches mode', List.length_flatten,
      List.length_flatten, lengths]
  dsimp only
  by_cases room : SatOracle.numVars (seed f sat hitter).sat + f.soft.length ≤ maxVar
  · rw [← f.flatten_batches mode, ← f'.flatten_batches mode'] at related
    have ended := lockstep.stages rounds lengths related
    rw [Run.solve, Run.solve]
    dsimp only
    rw [numVars, count, if_neg (Nat.not_lt_of_le room), if_neg (Nat.not_lt_of_le room)]
    generalize (seed f sat hitter).stages o (f.batches mode) = one at ended
    generalize (seed f' sat' hitter').stages o' (f'.batches mode') = other at ended
    obtain ⟨ending, r⟩ := one
    obtain ⟨ending', r'⟩ := other
    obtain ⟨rfl, rest, rest', last⟩ := ended
    cases ending' with
    | settled => exact ⟨.optimum (finish last), rest, rest', last⟩
    | infeasible => exact ⟨.infeasible, rest, rest', last⟩
    | failed e => exact ⟨.error e, rest, rest', last⟩
  · have full := Nat.lt_of_not_le room
    rw [solve_of_no_room full, solve_of_no_room (by rwa [numVars, count]), numVars, count]
    exact ⟨.error _, _, _, related⟩

end Lockstep

end Run

/-- The same variable relaxes a clause whose weight is `weigh` of the other's. -/
def Relaxation.Matches (weigh : Weight → Weight) (x x' : Relaxation) : Prop :=
  x'.var = x.var ∧ x'.soft.weight = weigh x.soft.weight

section Matches

variable {weigh : Weight → Weight} {xs xs' : List Relaxation}
  (matching : List.Forall₂ (Relaxation.Matches weigh) xs xs')
include matching

/-- A search by variable finds matching relaxations, or nothing in either list. -/
theorem find?_of_matches (p : Nat → Bool) :
    Option.Rel (Relaxation.Matches weigh) (xs.find? fun x => p x.var)
      (xs'.find? fun x => p x.var) := by
  induction matching with
  | nil => exact .none
  | @cons x x' xs xs' first rest ih =>
    rw [List.find?_cons, List.find?_cons, first.1]
    cases p x.var with
    | true => exact .some first
    | false => exact ih

theorem vars_of_matches : xs'.map Relaxation.var = xs.map Relaxation.var := by
  induction matching with
  | nil => rfl
  | cons first rest ih => rw [List.map_cons, List.map_cons, first.1, ih]

theorem filter_of_matches (p : Nat → Bool) :
    List.Forall₂ (Relaxation.Matches weigh) (xs.filter fun x => p x.var)
      (xs'.filter fun x => p x.var) := by
  refine List.rel_filter ?_ matching
  intro x x' first
  simp [first.1]

theorem coreMembers_of_matches (core : List Lit) :
    Run.coreMembers xs' core =
      (Run.coreMembers xs core).map (List.map fun m => (m.1, weigh m.2)) := by
  induction core with
  | nil => rfl
  | cons l core ih =>
    have found := find?_of_matches matching fun v => Lit.pos v == l
    rw [Run.coreMembers, Run.coreMembers]
    generalize (xs.find? fun x => Lit.pos x.var == l) = one at found
    generalize (xs'.find? fun x => Lit.pos x.var == l) = other at found
    cases found with
    | none => rfl
    | some first =>
      obtain ⟨var, weight⟩ := first
      dsimp only
      rw [ih, var, weight]
      cases Run.coreMembers xs core <;> rfl

end Matches

namespace Run

variable {σ τ σ' τ' : Type} [SatOracle σ] [HittingOracle τ] [SatOracle σ'] [HittingOracle τ']

/-- Calls on literals that are admitted get the same answers in related states, with cores that
are admitted again, and leave related states. Weights may differ by `weigh`. -/
structure Parallel (Admits : Lit → Prop) (weigh : Weight → Weight)
    (R : Run σ τ → Run σ' τ' → Prop) : Prop where
  relaxed : ∀ {r r'}, R r r' → List.Forall₂ (Relaxation.Matches weigh) r.relaxed r'.relaxed
  admits : ∀ {r r'}, R r r' → ∀ x ∈ r.relaxed, Admits (Lit.pos x.var)
  getSet : ∀ {r r'}, R r r' → r'.getSet.1 = r.getSet.1 ∧ R r.getSet.2 r'.getSet.2
  ask : ∀ {r r'}, R r r' → ∀ {ls : List Lit}, (∀ l ∈ ls, Admits l) →
    (r'.ask ls).1 = (r.ask ls).1 ∧ R (r.ask ls).2 (r'.ask ls).2 ∧
      ∀ core, (r.ask ls).1.core? = some core → ∀ l ∈ core, Admits l
  record : ∀ {r r'}, R r r' → ∀ ms : List (Nat × Weight),
    R (r.record (Core.ofMembers ms))
      (r'.record (Core.ofMembers (ms.map fun m => (m.1, weigh m.2))))

namespace Parallel

variable {Admits : Lit → Prop} {weigh : Weight → Weight} {R : Run σ τ → Run σ' τ' → Prop}
  (parallel : Parallel Admits weigh R) {o : RunOptions}
include parallel

theorem minimizeFrom (fuel : Nat) {kept : List Lit} {i : Nat} {r : Run σ τ} {r' : Run σ' τ'}
    (related : R r r') (admitted : ∀ l ∈ kept, Admits l) :
    (MaxSat.minimizeFrom Run.ask fuel kept i r').1 =
        (MaxSat.minimizeFrom Run.ask fuel kept i r).1 ∧
      R (MaxSat.minimizeFrom Run.ask fuel kept i r).2
        (MaxSat.minimizeFrom Run.ask fuel kept i r').2 := by
  induction fuel generalizing kept i r r' with
  | zero => exact ⟨rfl, related⟩
  | succ fuel ih =>
    rw [MaxSat.minimizeFrom, MaxSat.minimizeFrom]
    split
    · obtain ⟨reply, next, _⟩ := parallel.ask related admitted
      generalize r.ask kept = one at reply next
      generalize r'.ask kept = other at reply next
      obtain ⟨_, r₁⟩ := one
      obtain ⟨reply', r₁'⟩ := other
      obtain rfl := reply
      cases reply' <;> exact ⟨rfl, next⟩
    · have trial : ∀ l ∈ kept.eraseIdx i, Admits l := fun l mem =>
        admitted l (List.mem_of_mem_eraseIdx mem)
      obtain ⟨reply, next, _⟩ := parallel.ask related trial
      dsimp only
      generalize r.ask (kept.eraseIdx i) = one at reply next
      generalize r'.ask (kept.eraseIdx i) = other at reply next
      obtain ⟨_, r₁⟩ := one
      obtain ⟨reply', r₁'⟩ := other
      obtain rfl := reply
      cases reply' with
      | failed reason => exact ⟨rfl, next⟩
      | sat => exact ih next admitted
      | unsat core => exact ih next fun l mem => admitted l (List.mem_filter.mp mem).1

theorem shrink {core : List Lit} {r : Run σ τ} {r' : Run σ' τ'} (related : R r r')
    (admitted : ∀ l ∈ core, Admits l) :
    (r'.shrink o core).1 = (r.shrink o core).1 ∧
      R (r.shrink o core).2 (r'.shrink o core).2 := by
  rw [Run.shrink, Run.shrink]
  split
  · exact parallel.minimizeFrom _ related admitted
  · exact ⟨rfl, related⟩

theorem learn {kept kept' : List Relaxation}
    (matching : List.Forall₂ (Relaxation.Matches weigh) kept kept') {core : List Lit}
    {r : Run σ τ} {r' : Run σ' τ'} (related : R r r') (admitted : ∀ l ∈ core, Admits l) :
    (r'.learn o kept' core).1 = (r.learn o kept core).1 ∧
      R (r.learn o kept core).2 (r'.learn o kept' core).2 := by
  have shrunk := parallel.shrink (o := o) related admitted
  rw [Run.learn, Run.learn]
  generalize r.shrink o core = one at shrunk
  generalize r'.shrink o core = other at shrunk
  obtain ⟨_, r₁⟩ := one
  obtain ⟨part, r₁'⟩ := other
  obtain ⟨rfl, next⟩ := shrunk
  cases part with
  | error e => exact ⟨rfl, next⟩
  | ok part =>
    cases part with
    | nil => exact ⟨rfl, next⟩
    | cons l part =>
      dsimp only
      rw [coreMembers_of_matches matching]
      cases coreMembers kept (l :: part) with
      | error e => exact ⟨rfl, next⟩
      | ok ms => exact ⟨rfl, parallel.record next ms⟩

theorem round {r : Run σ τ} {r' : Run σ' τ'} (related : R r r') :
    (r'.round o).1 = (r.round o).1 ∧ R (r.round o).2 (r'.round o).2 := by
  have got := parallel.getSet related
  rw [Run.round, Run.round]
  generalize r.getSet = one at got
  generalize r'.getSet = other at got
  obtain ⟨_, r₁⟩ := one
  obtain ⟨set, r₁'⟩ := other
  obtain ⟨rfl, next⟩ := got
  have matching := parallel.relaxed next
  have unknown (v : Nat) : (r₁'.relaxation? v).isNone = (r₁.relaxation? v).isNone := by
    have found := find?_of_matches matching fun u => u == v
    rw [relaxation?, relaxation?]
    generalize (r₁.relaxed.find? fun x => x.var == v) = one at found
    generalize (r₁'.relaxed.find? fun x => x.var == v) = other at found
    cases found <;> rfl
  have assumed : r₁'.assumptions set = r₁.assumptions set := by
    have kept := filter_of_matches matching fun v => !set.contains v
    have vars := congrArg (List.map Lit.pos) (vars_of_matches kept)
    rwa [List.map_map, List.map_map] at vars
  have admitted : ∀ l ∈ r₁.assumptions set, Admits l := by
    intro l mem
    obtain ⟨x, hx, rfl⟩ := List.mem_map.mp mem
    exact parallel.admits next x (List.mem_filter.mp hx).1
  simp only [unknown, assumed]
  cases set.find? fun v => (r₁.relaxation? v).isNone with
  | some v => exact ⟨rfl, next⟩
  | none =>
    obtain ⟨reply, after, cores⟩ := parallel.ask next admitted
    dsimp only
    generalize r₁.ask (r₁.assumptions set) = one at reply after cores
    generalize r₁'.ask (r₁.assumptions set) = other at reply after
    obtain ⟨_, r₂⟩ := one
    obtain ⟨reply', r₂'⟩ := other
    obtain rfl := reply
    cases reply' with
    | failed reason => exact ⟨rfl, after⟩
    | sat => exact ⟨rfl, after⟩
    | unsat core =>
      cases core with
      | none => exact ⟨rfl, after⟩
      | some core =>
        have kept : List.Forall₂ (Relaxation.Matches weigh) (r₂.kept set) (r₂'.kept set) :=
          filter_of_matches (parallel.relaxed after) fun v => !set.contains v
        exact parallel.learn kept after (cores core rfl)

end Parallel

/-- The exhaustive solver holds the hard clauses and the soft ones that have entered, and `rest`
are those that have not. -/
structure Awaits (f : Formula) (base : Nat) (rest : List SoftClause)
    (r : Run ExhaustiveSolver τ) : Prop where
  encodes : Encodes ExhaustiveSolver.Holds f base r.sat r.relaxed
  softs : r.relaxed.map Relaxation.soft ++ rest = f.soft

namespace Awaits

variable {f : Formula} {base : Nat} {rest : List SoftClause} {r : Run ExhaustiveSolver τ}

omit [HittingOracle τ] in
theorem relax (fits : f.Fits base) {s : SoftClause} (awaits : r.Awaits f base (s :: rest)) :
    (r.relax s).Awaits f base rest where
  encodes := by
    refine awaits.encodes.relax ExhaustiveSolver.conforming fits ⟨rest, ?_⟩
    rw [List.append_assoc]
    exact awaits.softs
  softs := by
    have softs := awaits.softs
    simpa [Run.relax, Run.freshVar, Run.addClause] using softs

omit [HittingOracle τ] in
theorem ask (awaits : r.Awaits f base rest) (ls : List Lit) :
    (r.ask ls).2.Awaits f base rest where
  encodes := by
    have same : (r.ask ls).2.sat.cnf = r.sat.cnf := r.sat.cnf_solve ls
    have holds : (r.ask ls).2.sat.Holds (f.store r.relaxed) := by
      rw [ExhaustiveSolver.Holds, same]
      exact awaits.encodes.holds
    have numVars : (r.ask ls).2.sat.cnf.numVars = base + r.relaxed.length := by
      rw [same]
      exact awaits.encodes.numVars
    exact ⟨holds, numVars, awaits.encodes.vars, awaits.encodes.softs⟩
  softs := awaits.softs

theorem getSet (awaits : r.Awaits f base rest) : r.getSet.2.Awaits f base rest :=
  ⟨awaits.encodes, awaits.softs⟩

theorem record (awaits : r.Awaits f base rest) (c : Core) : (r.record c).Awaits f base rest :=
  ⟨awaits.encodes, awaits.softs⟩

omit [HittingOracle τ] in
theorem positive (awaits : r.Awaits f base rest) {x : Relaxation} (mem : x ∈ r.relaxed) :
    1 ≤ (Lit.pos x.var).var :=
  Nat.succ_le_of_lt (Nat.zero_lt_of_lt (awaits.encodes.var_bounds mem).1)

omit [HittingOracle τ] in
/-- Nothing has entered yet. -/
theorem start (awaits : r.Awaits f base f.soft) :
    r.relaxed = [] ∧ SatOracle.numVars r.sat = base := by
  have none_ : r.relaxed = [] := by simpa using awaits.softs
  refine ⟨none_, ?_⟩
  rw [awaits.encodes.numVars, none_]
  rfl

end Awaits

theorem seed_awaits {f : Formula} (wellFormed : f.WellFormed) (proper : f.Proper) :
    (seed f ({} : ExhaustiveSolver) ({} : Hitter)).Awaits f f.numVars f.soft := by
  obtain ⟨sound, none_⟩ :=
    seed_sound ExhaustiveSolver.conforming wellFormed proper ExhaustiveSolver.holds_nil
  have base : max (SatOracle.numVars ({} : ExhaustiveSolver)) f.numVars = f.numVars :=
    Nat.zero_max f.numVars
  rw [base] at sound
  refine ⟨sound.encodes, ?_⟩
  rw [none_]
  rfl

/-- Without room for the relaxation variables a formula is refused after seeding. -/
theorem solve_of_full {f : Formula} (wellFormed : f.WellFormed) (proper : f.Proper)
    (full : maxVar < f.numVars + f.soft.length) (mode : Mode) (o : RunOptions) :
    Run.solve f mode o ({} : ExhaustiveSolver) ({} : Hitter) =
      (.error (.tooManyVariables (f.numVars + f.soft.length)), seed f {} {}) := by
  rw [← (seed_awaits wellFormed proper).start.2] at full ⊢
  exact solve_of_no_room full mode o

omit [HittingOracle τ] in
/-- Seeding makes no call that is answered. -/
theorem seed_unanswered (f : Formula) (hitter : τ) :
    let r := seed f ({} : ExhaustiveSolver) hitter
    r.sat.model = none ∧ r.sat.tally = {} ∧ r.hsCalls = 0 ∧ r.cores = 0 := by
  rw [seed_eq]
  obtain ⟨model, tally⟩ := List.foldlRecOn
    (motive := fun s : ExhaustiveSolver => s.model = none ∧ s.tally = {}) f.hard
    (fun s h => SatOracle.addClause s h.clause)
    (b := SatOracle.reserve ({} : ExhaustiveSolver) f.numVars) ⟨rfl, rfl⟩ fun _ kept _ _ => kept
  exact ⟨model, tally, rfl, rfl⟩

end Run

end MaxSat

import MaxSat.Engine.Playback
import MaxSat.Proofs.Engine.Lockstep
import MaxSat.Proofs.Formula.Buckets

/-!
# One bucket is flat mode

Soft clauses that share a partition enter in one stage, and so does nothing at
all; flat mode does no more. Merging the partitions of a formula changes only the
labels that a run carries along with its relaxed clauses and never looks at. So
a partitioned run on the merged formula makes the calls of a flat run, one by
one, whatever the oracles answer and however it ends.
-/

namespace MaxSat

theorem bucketsOf_of_one_partition {p : Nat} {soft : List SoftClause}
    (same : ∀ s ∈ soft, s.partition = p) (some_ : soft ≠ []) : bucketsOf soft = [⟨p, soft⟩] := by
  induction soft with
  | nil => exact absurd rfl some_
  | cons s rest ih =>
    obtain ⟨first, others⟩ := List.forall_mem_cons.mp same
    by_cases last : rest = []
    · subst last
      simp [bucketsOf, first]
    · rw [bucketsOf_cons_of_eq (ih others last) first]

namespace Formula

theorem batches_of_one_bucket {f : Formula} (one : f.buckets.length ≤ 1) :
    f.batches .partitioned = f.batches .flat := by
  have all : (f.buckets.map Bucket.clauses).flatten = f.soft := flatten_buckets f.soft
  rw [batches, batches]
  split
  · rename_i none_
    rw [List.isEmpty_iff.mp none_]
  · rename_i some_
    cases eq : f.buckets with
    | nil =>
      rw [eq] at all
      simp [← all] at some_
    | cons b bs =>
      rw [eq, List.length_cons] at one
      obtain rfl : bs = [] := List.length_eq_zero_iff.mp (by omega)
      simpa [eq] using all

theorem length_buckets_mergePartitions (f : Formula) : f.mergePartitions.buckets.length ≤ 1 := by
  rw [buckets]
  by_cases none_ : f.mergePartitions.soft = []
  · simp [none_, bucketsOf]
  · have same : ∀ s ∈ f.mergePartitions.soft, s.partition = 0 := by
      intro s mem
      obtain ⟨t, _, rfl⟩ := List.mem_map.mp mem
      rfl
    rw [bucketsOf_of_one_partition same none_, List.length_singleton]

end Formula

def SoftClause.merged (s : SoftClause) : SoftClause := { s with partition := 0 }

def Relaxation.merged (x : Relaxation) : Relaxation := { x with soft := x.soft.merged }

namespace Run

variable {σ τ : Type}

/-- The state that a run on the merged formula is in at the same time. -/
def merged (r : Run σ τ) : Run σ τ := { r with relaxed := r.relaxed.map Relaxation.merged }

variable [SatOracle σ] [HittingOracle τ]

omit [HittingOracle τ] in
theorem relax_merged (r : Run σ τ) (s : SoftClause) :
    r.merged.relax s.merged = (r.relax s).merged := by
  simp [relax, merged, freshVar, addClause, Relaxation.merged, SoftClause.merged]

omit [HittingOracle τ] in
theorem finish_merged (f : Formula) (n : Nat) (r : Run σ τ) :
    r.merged.finish f.mergePartitions n = r.finish f n := by
  simp only [finish, merged, List.filter_map, List.map_map, List.length_map]
  rfl

omit [HittingOracle τ] in
theorem seed_merged (f : Formula) (sat : σ) (hitter : τ) :
    seed f.mergePartitions sat hitter = (seed f sat hitter).merged := by
  rw [seed_eq, seed_eq]
  rfl

/-- No call looks at a label. -/
theorem parallel_merged : Parallel (fun _ => True) id fun r r' : Run σ τ => r' = r.merged where
  relaxed := by
    rintro r _ rfl
    rw [merged, List.forall₂_map_right_iff, List.forall₂_same]
    exact fun x _ => ⟨rfl, rfl⟩
  admits _ _ _ := trivial
  getSet := by
    rintro r _ rfl
    exact ⟨rfl, rfl⟩
  ask := by
    rintro r _ rfl ls _
    exact ⟨rfl, rfl, fun _ _ _ _ => trivial⟩
  record := by
    rintro r _ rfl ms
    simp only [id, List.map_id']
    rfl

theorem lockstep_merged (o : RunOptions) : Lockstep o o fun rest rest' (r r' : Run σ τ) =>
    rest' = rest.map SoftClause.merged ∧ r' = r.merged where
  relax := by
    rintro s s' rest rest' r _ ⟨softs, rfl⟩
    obtain ⟨rfl, rfl⟩ := List.cons.inj softs
    exact ⟨rfl, relax_merged r s⟩
  round := by
    rintro rest rest' r r' ⟨softs, states⟩
    obtain ⟨step, next⟩ := parallel_merged.round (o := o) states
    exact ⟨step, softs, next⟩

theorem solve_mergePartitions (f : Formula) (o : RunOptions) (sat : σ) (hitter : τ) :
    let flat := Run.solve f .flat o sat hitter
    Run.solve f.mergePartitions .flat o sat hitter = (flat.1, flat.2.merged) := by
  intro flat
  have lengths : (f.mergePartitions.batches .flat).map List.length =
      (f.batches .flat).map List.length := by
    simp [Formula.batches, Formula.mergePartitions]
  have seeded := seed_merged f sat hitter
  have numVars : SatOracle.numVars (seed f.mergePartitions sat hitter).sat =
      SatOracle.numVars (seed f sat hitter).sat := by
    rw [seeded]
    rfl
  have ended : Outcome.Alike Eq flat.1 (Run.solve f.mergePartitions .flat o sat hitter).1 ∧ _ :=
    (lockstep_merged o).solve rfl lengths numVars ⟨rfl, seeded⟩ <| by
      rintro _ _ r _ ⟨_, rfl⟩
      exact (finish_merged f _ r).symm
  obtain ⟨results, _, _, _, states⟩ := ended
  exact Prod.ext results.eq.symm states

/-- A partitioned run on the merged formula and a flat run make the same calls, get the same
answers and come to the same result, for any oracles. So do the two on a formula with at most
one bucket that holds a clause. -/
theorem solve_one_bucket_is_flat (f : Formula) (o : RunOptions) (sat : σ) (hitter : τ) :
    let flat := Run.solve f .flat o sat hitter
    let merged := Run.solve f.mergePartitions .partitioned o sat hitter
    (merged.1 = flat.1 ∧ merged.2.log = flat.2.log ∧ merged.2.sat = flat.2.sat ∧
        merged.2.hitter = flat.2.hitter) ∧
      (f.buckets.length ≤ 1 → Run.solve f .partitioned o sat hitter = flat) := by
  intro flat merged
  have onBatches {g : Formula} (one : g.buckets.length ≤ 1) :
      Run.solve g .partitioned o sat hitter = Run.solve g .flat o sat hitter := by
    rw [Run.solve, Run.solve, Formula.batches_of_one_bucket one]
  have eq : merged = (flat.1, flat.2.merged) :=
    (onBatches f.length_buckets_mergePartitions).trans (solve_mergePartitions f o sat hitter)
  rw [eq]
  exact ⟨⟨rfl, rfl, rfl, rfl⟩, onBatches⟩

/-- The oracles lie. An answer that names a literal never assumed shrinks the first core, and the
second core, of the hitting set, ends the run. -/
theorem solve_one_bucket_is_flat_lies :
    let f : Formula := {
      numVars := 2
      inputVars := 2
      hard := [⟨[Lit.neg 1, Lit.neg 2], 4⟩]
      soft := [⟨[Lit.pos 1], 1, 7⟩, ⟨[Lit.pos 2], 2, 7⟩]
      numPartitions := 8
      topWeight := 4
      offset := 0
      comments := [] }
    let sat : SatScript := {
      numVars := 0
      replies := [.unsat (some [Lit.pos 4, Lit.pos 3]), .sat [],
        .unsat (some [Lit.neg 1, Lit.pos 4]), .sat [], .unsat (some [Lit.pos 3])] }
    let hitter : HittingScript := { sets := [[], [3]] }
    let o : RunOptions := { minimize := true, rounds := f.roundBound }
    let flat := Run.solve f .flat o sat hitter
    f.buckets.length ≤ 1 ∧ Run.solve f .partitioned o sat hitter = flat ∧
      (Run.solve f.mergePartitions .partitioned o sat hitter).2.log = flat.2.log ∧
      (Log.cores flat.2.log).map Core.vars = [[4]] ∧ flat.1 = .error (.notAssumed (Lit.pos 3)) := by
  intro f sat hitter o
  dsimp only
  have one : f.buckets.length ≤ 1 := by decide
  obtain ⟨⟨_, calls, _, _⟩, same⟩ := solve_one_bucket_is_flat f o sat hitter
  exact ⟨one, same one, calls, by cbv, by cbv⟩

end Run

end MaxSat

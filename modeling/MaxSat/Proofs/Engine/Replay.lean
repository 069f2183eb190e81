import MaxSat.Proofs.Engine.Logged

/-!
# What every call keeps

A run changes its state by oracle calls and by nothing else, so what each of
them keeps holds at the end if it holds after seeding. In this way a log grows
at its front only, and tells the state of the hitting-set oracle: playing its
calls again leads there.
-/

namespace MaxSat

namespace Run

variable {σ τ : Type} [SatOracle σ] [HittingOracle τ]

/-- A property that no call changes, where the clauses that are relaxed are among `softs`. -/
structure Stable (softs : List SoftClause) (P : Run σ τ → Prop) : Prop where
  relax : ∀ {r}, P r → ∀ s ∈ softs, P (r.relax s)
  getSet : ∀ {r}, P r → P r.getSet.2
  ask : ∀ {r}, P r → ∀ ls, P (r.ask ls).2
  record : ∀ {r}, P r → ∀ c, P (r.record c)

namespace Stable

variable {softs : List SoftClause} {P : Run σ τ → Prop} (stable : Stable softs P)
  {o : RunOptions} {r : Run σ τ}
include stable

theorem minimizeFrom (fuel : Nat) {kept : List Lit} {i : Nat} {r : Run σ τ} (holds : P r) :
    P (MaxSat.minimizeFrom Run.ask fuel kept i r).2 := by
  induction fuel generalizing kept i r with
  | zero => exact holds
  | succ fuel ih =>
    rw [MaxSat.minimizeFrom]
    split
    · have asked := stable.ask holds kept
      generalize r.ask kept = called at asked
      obtain ⟨reply, r'⟩ := called
      cases reply <;> exact asked
    · have asked := stable.ask holds (kept.eraseIdx i)
      dsimp only
      generalize r.ask (kept.eraseIdx i) = called at asked
      obtain ⟨reply, r'⟩ := called
      cases reply with
      | failed reason => exact asked
      | sat => exact ih asked
      | unsat core => exact ih asked

theorem shrink (holds : P r) (core : List Lit) : P (r.shrink o core).2 := by
  rw [Run.shrink]
  split
  · exact stable.minimizeFrom _ holds
  · exact holds

theorem learn (holds : P r) (kept : List Relaxation) (core : List Lit) :
    P (r.learn o kept core).2 := by
  have shrunk := stable.shrink (o := o) holds core
  rw [Run.learn]
  generalize r.shrink o core = result at shrunk
  obtain ⟨part, r'⟩ := result
  cases part with
  | error e => exact shrunk
  | ok part =>
    cases part with
    | nil => exact shrunk
    | cons l part =>
      dsimp only
      cases coreMembers kept (l :: part) with
      | error e => exact shrunk
      | ok ms => exact stable.record shrunk _

theorem round (holds : P r) : P (r.round o).2 := by
  have got := stable.getSet holds
  rw [Run.round]
  generalize r.getSet = result at got
  obtain ⟨set, r₁⟩ := result
  dsimp only at got ⊢
  cases set.find? fun v => (r₁.relaxation? v).isNone with
  | some v => exact got
  | none =>
    have asked := stable.ask got (r₁.assumptions set)
    dsimp only
    generalize r₁.ask (r₁.assumptions set) = called at asked
    obtain ⟨reply, r₂⟩ := called
    cases reply with
    | sat => exact asked
    | failed reason => exact asked
    | unsat core =>
      cases core with
      | none => exact asked
      | some core => exact stable.learn asked _ core

theorem converge (n : Nat) {r : Run σ τ} (holds : P r) : P (Run.converge o n r).2 := by
  induction n generalizing r with
  | zero => exact holds
  | succ n ih =>
    have next := stable.round (o := o) holds
    rw [Run.converge]
    generalize r.round o = result at next
    obtain ⟨step, r'⟩ := result
    cases step with
    | ended ending => exact next
    | again => exact ih next

theorem foldl_relax {batch : List SoftClause} {r : Run σ τ} (part : batch ⊆ softs)
    (holds : P r) : P (batch.foldl Run.relax r) := by
  induction batch generalizing r with
  | nil => exact holds
  | cons s batch ih =>
    obtain ⟨mem, part⟩ := List.cons_subset.mp part
    exact ih part (stable.relax holds s mem)

theorem stages {batches : List (List SoftClause)} {r : Run σ τ} (part : batches.flatten ⊆ softs)
    (holds : P r) : P (Run.stages o batches r).2 := by
  induction batches generalizing r with
  | nil => exact holds
  | cons batch batches ih =>
    obtain ⟨first, rest⟩ := List.append_subset.mp part
    have stage : P (r.stage o batch).2 := stable.converge _ (stable.foldl_relax first holds)
    rw [Run.stages]
    generalize r.stage o batch = result at stage
    obtain ⟨ending, r'⟩ := result
    cases ending with
    | settled => exact ih rest stage
    | infeasible => exact stage
    | failed e => exact stage

end Stable

theorem Stable.solve {f : Formula} {P : Run σ τ → Prop} (stable : Stable f.soft P) {sat : σ}
    {hitter : τ} (holds : P (seed f sat hitter)) (mode : Mode) (o : RunOptions) :
    P (Run.solve f mode o sat hitter).2 := by
  have part : (f.batches mode).flatten ⊆ f.soft := by
    rw [f.flatten_batches mode]
    exact List.Subset.refl _
  by_cases room : SatOracle.numVars (seed f sat hitter).sat + f.soft.length ≤ maxVar
  · rw [(solve_of_room room mode o).1]
    exact stable.stages part holds
  · rw [solve_of_no_room (Nat.lt_of_not_le room)]
    exact holds

/-- Calls are only ever added to the log. -/
theorem stable_suffix (softs : List SoftClause) (log : List Event) :
    Stable softs fun r : Run σ τ => log <:+ r.log where
  relax holds _ _ := (holds.trans (List.suffix_cons _ _)).trans (List.suffix_cons _ _)
  getSet holds := holds.trans (List.suffix_cons _ _)
  ask holds _ := holds.trans (List.suffix_cons _ _)
  record holds _ := holds.trans (List.suffix_cons _ _)

/-- The counter of a run counts the recorded cores. -/
theorem stable_cores (softs : List SoftClause) :
    Stable softs fun r : Run σ τ => r.cores = (Log.cores r.log).length where
  relax holds _ _ := by simpa [Run.relax, Run.addClause, Run.freshVar, Event.core?] using holds
  getSet holds := by simpa [Run.getSet, Event.core?] using holds
  ask holds _ := by simpa [Run.ask, Event.core?] using holds
  record holds _ := by simpa [Run.record, Event.core?] using holds

theorem solve_cores (f : Formula) (mode : Mode) (o : RunOptions) (sat : σ) (hitter : τ) :
    let last := (Run.solve f mode o sat hitter).2
    last.cores = (Log.cores last.log).length := by
  apply (stable_cores f.soft).solve
  rw [Log.cores_eq_nil fun c mem => isSetup_of_mem_seed mem, seed_eq]
  rfl

end Run

section Hitter

variable {τ : Type} [HittingOracle τ]

/-- What a call does to the hitting-set oracle. -/
def Event.serve : Event → τ → τ
  | get _ _, h => (HittingOracle.get h).2
  | hit c, h => HittingOracle.hit h c
  | _, h => h

/-- The hitting-set oracle after the calls of a log. -/
def Log.hitter (first : τ) (log : List Event) : τ := log.foldr Event.serve first

@[simp] theorem Log.hitter_cons (first : τ) (e : Event) (log : List Event) :
    Log.hitter first (e :: log) = e.serve (Log.hitter first log) := rfl

/-- The hitting sets of the log are what the oracle answers. -/
def Log.Replayed (first : τ) : List Event → Prop
  | [] => True
  | .get set _ :: log => set = (HittingOracle.get (Log.hitter first log)).1 ∧ Replayed first log
  | _ :: log => Replayed first log

theorem Log.Replayed.of_append {first : τ} {later log : List Event}
    (replayed : Log.Replayed first (later ++ log)) : Log.Replayed first log := by
  induction later with
  | nil => exact replayed
  | cons e later ih =>
    cases e with
    | get set n => exact ih replayed.2
    | _ => exact ih replayed

theorem Log.replayed_of_isSetup (first : τ) {log : List Event} (setup : ∀ e ∈ log, e.IsSetup) :
    Log.Replayed first log ∧ Log.hitter first log = first := by
  induction log with
  | nil => exact ⟨trivial, rfl⟩
  | cons e log ih =>
    obtain ⟨head, tail⟩ := List.forall_mem_cons.mp setup
    obtain ⟨replayed, same⟩ := ih tail
    cases e with
    | reserve n after => exact ⟨replayed, same⟩
    | add c => exact ⟨replayed, same⟩
    | _ => cases head

namespace Run

variable {σ : Type} [SatOracle σ]

theorem stable_replayed (softs : List SoftClause) (first : τ) :
    Stable softs fun r : Run σ τ =>
      Log.Replayed first r.log ∧ r.hitter = Log.hitter first r.log where
  relax holds _ _ := holds
  getSet {r} holds := by
    obtain ⟨replayed, same⟩ := holds
    refine ⟨⟨?_, replayed⟩, ?_⟩
    · rw [← same]
      rfl
    · rw [Run.getSet, Log.hitter_cons, ← same]
      rfl
  ask holds _ := holds
  record holds c := by
    obtain ⟨replayed, same⟩ := holds
    refine ⟨replayed, ?_⟩
    rw [Run.record, Log.hitter_cons, ← same]
    rfl

theorem seed_replayed (f : Formula) (sat : σ) (hitter : τ) :
    let r := seed f sat hitter
    Log.Replayed hitter r.log ∧ r.hitter = Log.hitter hitter r.log := by
  intro r
  have setup : ∀ e ∈ r.log, e.IsSetup := fun e => isSetup_of_mem_seed
  obtain ⟨replayed, same⟩ := Log.replayed_of_isSetup hitter setup
  refine ⟨replayed, ?_⟩
  rw [same]
  change (seed f sat hitter).hitter = hitter
  rw [seed_eq]

theorem solve_replayed (f : Formula) (mode : Mode) (o : RunOptions) (sat : σ) (hitter : τ) :
    Log.Replayed hitter (Run.solve f mode o sat hitter).2.log :=
  ((stable_replayed f.soft hitter).solve (seed_replayed f sat hitter) mode o).1

end Run

end Hitter

/-- A hitter that plays back the calls of a log has recorded its cores. -/
theorem Log.hitter_records {log : List Event} (nonempty : ∀ c ∈ Log.cores log, c.vars ≠ []) :
    (Log.hitter ({} : Hitter) log).Records (Log.cores log) := by
  induction log with
  | nil => exact Hitter.records_nil
  | cons e log ih =>
    rw [Log.cores_cons] at nonempty ⊢
    have records := ih fun c mem => nonempty c (List.mem_append_left _ mem)
    cases e with
    | hit c => exact records.hit (nonempty c (by simp [Event.core?]))
    | get set n =>
      simp only [Event.core?, Option.toList_none, List.append_nil]
      exact records.ask
    | _ => simpa [Event.core?, Event.serve] using records

end MaxSat

import MaxSat.Proofs.Oracle.Conformance

/-!
# The exhaustive solver

Deletion tries each assumption against the core as it stands at that moment. A
literal that stays was needed beside more literals than there are in the end, so
it is needed beside those too: the core that is left is minimal. This holds for
any assumptions, also such that repeat or contradict one another.

A least model is determined by the models there are, and deletion asks for
satisfiability only. So stores with the same models get the same answers,
whichever way the search takes through their clauses.
-/

namespace MaxSat

/-- Refuted together with the clauses, but no longer if any one literal is left out. -/
structure MinimalCore (cs : List Clause) (core : List Lit) : Prop where
  refuted : ¬ Consistent cs core
  needed : ∀ i, i < core.length → Consistent cs (core.eraseIdx i)

theorem MinimalCore.eq_nil_iff {cs : List Clause} {core : List Lit}
    (minimal : MinimalCore cs core) : core = [] ↔ ¬ Consistent cs [] := by
  constructor
  · rintro rfl
    exact minimal.refuted
  · intro refuted
    cases core with
    | nil => rfl
    | cons l core =>
      have others := minimal.needed 0 (Nat.succ_pos _)
      exact absurd (others.mono fun k mem => absurd mem List.not_mem_nil) refuted

/-- If each literal kept so far is needed beside the others and those still to come, then each
literal of the result is needed beside the others. -/
theorem shrinkCore_needed {f : Cnf} (proper : f.Proper) {kept rest : List Lit}
    (positive : ∀ l ∈ kept ++ rest, 1 ≤ l.var)
    (needed : ∀ i, i < kept.length → Consistent f.clauses (kept.eraseIdx i ++ rest)) (i : Nat)
    (inside : i < (shrinkCore f kept rest).length) :
    Consistent f.clauses ((shrinkCore f kept rest).eraseIdx i) := by
  induction rest generalizing kept with
  | nil =>
    rw [shrinkCore] at inside ⊢
    simpa using needed i inside
  | cons l rest ih =>
    have without (ks : List Lit) : (ks ++ rest).Sublist (ks ++ l :: rest) :=
      (List.sublist_cons_self l rest).append_left ks
    have positive' : ∀ k ∈ kept ++ rest, 1 ≤ k.var :=
      fun k mem => positive k ((without kept).mem mem)
    rw [shrinkCore] at inside ⊢
    by_cases sat : Search.satisfiable f (kept ++ rest) = true
    · -- the literal stays: the others, those to come included, are consistent without it
      have others := (satisfiable_iff proper positive').mp sat
      rw [if_pos sat] at inside ⊢
      apply ih _ _ inside
      · simpa using positive
      · intro j hj
        rw [List.length_append, List.length_singleton] at hj
        by_cases old : j < kept.length
        · rw [List.eraseIdx_append_of_lt_length old]
          simpa using needed j old
        · obtain rfl : j = kept.length := by omega
          rw [List.eraseIdx_append_of_length_le (Nat.le_refl _)]
          simpa using others
    · rw [if_neg sat] at inside ⊢
      apply ih positive' _ inside
      intro j hj
      exact (needed j hj).mono fun k mem => (without _).mem mem

theorem minimalCore_shrinkCore {f : Cnf} (proper : f.Proper) {ls : List Lit}
    (positive : ∀ l ∈ ls, 1 ≤ l.var) (refuted : ¬ Consistent f.clauses ls) :
    (shrinkCore f [] ls).Sublist ls ∧ MinimalCore f.clauses (shrinkCore f [] ls) := by
  have whole : [] ++ ls = ls := List.nil_append ls
  obtain ⟨sublist, coreRefuted⟩ := shrinkCore_spec proper (whole ▸ positive) (whole ▸ refuted)
  refine ⟨sublist, coreRefuted, shrinkCore_needed proper positive ?_⟩
  intro i none_
  cases none_

namespace ExhaustiveSolver

/-- A call changes the last model and the tally, never the clauses. -/
@[simp] theorem cnf_solve (s : ExhaustiveSolver) (ls : List Lit) : (s.solve ls).2.cnf = s.cnf := by
  rw [solve]
  split <;> rfl

@[simp] theorem calls_solve (s : ExhaustiveSolver) (ls : List Lit) :
    (s.solve ls).2.tally.calls = s.tally.calls + 1 := by
  rw [solve]
  split <;> rfl

@[simp] theorem model_solve (s : ExhaustiveSolver) (ls : List Lit) :
    (s.solve ls).2.model = Search.model? s.cnf ls := by
  rw [solve]
  split <;> simp only [*]

/-- The reply tells nothing of the calls before. -/
theorem reply_congr {s s' : ExhaustiveSolver} (same : s'.cnf = s.cnf) (ls : List Lit) :
    (s'.solve ls).1 = (s.solve ls).1 := by
  rw [solve, solve, same]
  cases Search.model? s.cnf ls <;> rfl

theorem reply_ne_failed (s : ExhaustiveSolver) (ls : List Lit) (reason : String) :
    (s.solve ls).1 ≠ .failed reason := by
  rw [solve]
  split <;> simp

theorem reply_of_consistent {s : ExhaustiveSolver} (proper : s.cnf.Proper) {ls : List Lit}
    (positive : ∀ l ∈ ls, 1 ≤ l.var) (consistent : Consistent s.cnf.clauses ls) :
    (s.solve ls).1 = .sat := by
  rw [← satisfiable_iff proper positive, Search.satisfiable, Option.isSome_iff_exists] at consistent
  obtain ⟨m, found⟩ := consistent
  rw [solve, found]

/-- What a call can come to: the least model, or a minimal core. -/
theorem solve_cases {s : ExhaustiveSolver} (proper : s.cnf.Proper) {ls : List Lit}
    (positive : ∀ l ∈ ls, 1 ≤ l.var) :
    (∃ m, Search.LeastModel s.cnf ls m ∧
      s.solve ls = (.sat, { s with model := some m, tally := s.tally.addSat })) ∨
    ∃ core, core.Sublist ls ∧ MinimalCore s.cnf.clauses core ∧
      s.solve ls = (.unsat (some core), { s with model := none, tally := s.tally.addUnsat }) := by
  cases found : Search.model? s.cnf ls with
  | some m =>
    refine .inl ⟨m, Search.leastModel_of_model? proper positive found, ?_⟩
    simp only [solve, found]
  | none =>
    have refuted : ¬ Consistent s.cnf.clauses ls := by
      rw [← satisfiable_iff proper positive, Search.satisfiable, found]
      simp
    obtain ⟨sublist, minimal⟩ := minimalCore_shrinkCore proper positive refuted
    refine .inr ⟨_, sublist, minimal, ?_⟩
    simp only [solve, found]

/-- States that calls on literals with an id lead to, with the clauses added on the way. -/
inductive Made : ExhaustiveSolver → List Clause → Prop
  | new : Made {} []
  | freshVar {s : ExhaustiveSolver} {cs : List Clause} (made : Made s cs) : Made s.freshVar.2 cs
  | reserve {s : ExhaustiveSolver} {cs : List Clause} {n : Nat} (made : Made s cs)
      (room : n ≤ lastId) : Made (s.reserve n) cs
  | addClause {s : ExhaustiveSolver} {cs : List Clause} {c : Clause} (made : Made s cs)
      (ids : ∀ l ∈ c, 1 ≤ l.var ∧ l.var ≤ lastId) : Made (s.addClause c) (cs ++ [c])
  | solve {s : ExhaustiveSolver} {cs : List Clause} (made : Made s cs) (ls : List Lit) :
      Made (s.solve ls).2 cs

theorem Made.holds {s : ExhaustiveSolver} {cs : List Clause} (made : s.Made cs) :
    s.Holds cs ∧ s.cnf.numVars ≤ lastId := by
  induction made with
  | new => exact ⟨holds_nil, Nat.zero_le _⟩
  | freshVar _ ih =>
    obtain ⟨⟨clauses, proper⟩, room⟩ := ih
    exact ⟨⟨clauses, proper.mono rfl (Nat.le_min.mpr ⟨Nat.le_succ _, room⟩)⟩, Nat.min_le_right _ _⟩
  | reserve _ small ih =>
    obtain ⟨⟨clauses, proper⟩, room⟩ := ih
    exact ⟨⟨clauses, proper.mono rfl (Nat.le_max_left _ _)⟩, Nat.max_le.mpr ⟨room, small⟩⟩
  | addClause _ ids ih =>
    obtain ⟨⟨rfl, proper⟩, room⟩ := ih
    refine ⟨⟨rfl, proper.addClause fun l mem => (ids l mem).1⟩, ?_⟩
    exact Nat.max_le.mpr ⟨room, Clause.maxVar_le fun l mem => (ids l mem).2⟩
  | solve _ ls ih => rwa [Holds, cnf_solve]

theorem Made.tally {s : ExhaustiveSolver} {cs : List Clause} (made : s.Made cs) :
    s.tally.calls = s.tally.satAnswers + s.tally.unsatAnswers := by
  induction made with
  | new => rfl
  | freshVar _ ih => exact ih
  | reserve _ _ ih => exact ih
  | addClause _ _ ih => exact ih
  | @solve s cs _ ls ih =>
    rw [ExhaustiveSolver.solve]
    split
    · simp only [Tally.addSat]
      omega
    · simp only [Tally.addUnsat]
      omega

/-- After any calls, an answer is right and a core is a minimal part of the assumptions. A model
gives a value to every variable in use or assumed; without one no variable has a value. -/
theorem solve_gives_minimal_core {s : ExhaustiveSolver} {cs : List Clause} (made : s.Made cs)
    {ls : List Lit} (positive : ∀ l ∈ ls, 1 ≤ l.var) :
    let reply := (s.solve ls).1
    let next := (s.solve ls).2
    next.tally.calls = next.tally.satAnswers + next.tally.unsatAnswers ∧
      (reply = .sat ↔ Consistent cs ls) ∧
      (reply = .sat → reply.core? = none ∧ ∃ ν : Valuation,
        (∀ c ∈ cs, Clause.holds ν c = true) ∧ (∀ l ∈ ls, l.holds ν = true) ∧
          ∀ v, v ≤ max s.cnf.numVars (Clause.maxVar ls) → next.value v = some (ν v)) ∧
      (reply ≠ .sat → (∀ v, next.value v = none) ∧ ∃ core, reply.core? = some core ∧
        core.Sublist ls ∧ ¬ Consistent cs core ∧
          (∀ i, i < core.length → Consistent cs (core.eraseIdx i)) ∧
          (core = [] ↔ ¬ Consistent cs [])) := by
  intro reply next
  obtain ⟨⟨rfl, proper⟩, _⟩ := made.holds
  refine ⟨(made.solve ls).tally, ?_⟩
  rcases solve_cases proper positive with ⟨m, least, answer⟩ | ⟨core, sublist, minimal, answer⟩
  · have sat : reply = .sat := congrArg Prod.fst answer
    have last : next.model = some m := congrArg (fun a => a.2.model) answer
    have clauses := Cnf.holds_iff.mp least.satisfies.1
    have values : ∀ v, v ≤ max s.cnf.numVars (Clause.maxVar ls) →
        next.value v = some (valuation m v) := by
      intro v le
      apply value_of_model last
      rw [least.size, Search.width]
      omega
    rw [sat]
    exact ⟨⟨fun _ => ⟨_, clauses, least.satisfies.2⟩, fun _ => rfl⟩,
      fun _ => ⟨rfl, _, clauses, least.satisfies.2, values⟩, fun other => absurd rfl other⟩
  · have unsat : reply = .unsat (some core) := congrArg Prod.fst answer
    have last : next.model = none := congrArg (fun a => a.2.model) answer
    have values : ∀ v, next.value v = none := by
      intro v
      rw [value, last]
      rfl
    rw [unsat]
    refine ⟨⟨by rintro ⟨⟩, fun consistent => ?_⟩, by rintro ⟨⟩, fun _ => ⟨values, core, rfl,
      sublist, minimal.refuted, minimal.needed, minimal.eq_nil_iff⟩⟩
    exact absurd (consistent.mono fun l mem => sublist.mem mem) minimal.refuted

/-- Of the two assumptions that are equal the first is left out, and so is the one that no clause
speaks against. -/
theorem solve_gives_minimal_core_repeated :
    let s := ((({} : ExhaustiveSolver).reserve 1).addClause [Lit.neg 1, Lit.pos 2]).freshVar.2
    let ls := [Lit.pos 1, Lit.neg 2, Lit.pos 1, Lit.pos 3]
    let core := [Lit.neg 2, Lit.pos 1]
    s.Made [[Lit.neg 1, Lit.pos 2]] ∧ (s.solve ls).1.core? = some core ∧
      ¬ Consistent [[Lit.neg 1, Lit.pos 2]] core ∧
      ∀ i, i < core.length → Consistent [[Lit.neg 1, Lit.pos 2]] (core.eraseIdx i) := by
  intro s ls core
  have made : s.Made [[Lit.neg 1, Lit.pos 2]] :=
    .freshVar (.addClause (.reserve .new (by decide)) (by decide))
  have answer : (s.solve ls).1.core? = some core := by decide +kernel
  have unsat : (s.solve ls).1 ≠ .sat := by decide +kernel
  have positive : ∀ l ∈ ls, 1 ≤ l.var := by decide
  obtain ⟨_, _, _, minimal⟩ := solve_gives_minimal_core made positive
  obtain ⟨_, found, eq, _, refuted, needed, _⟩ := minimal unsat
  rw [answer] at eq
  cases eq
  exact ⟨made, answer, refuted, needed⟩

end ExhaustiveSolver

theorem LexLe.antisymm {n : Nat} {μ ν : Valuation} (below : LexLe n μ ν) (above : LexLe n ν μ)
    {v : Nat} (one : 1 ≤ v) (le : v ≤ n) : μ v = ν v := by
  rcases below with same | ⟨i, hi, _, beforeI, lowI, highI⟩
  · exact same v one le
  · rcases above with same | ⟨j, hj, _, beforeJ, lowJ, highJ⟩
    · exact (same v one le).symm
    · -- both would name the first place where the two differ
      exfalso
      rcases Nat.lt_trichotomy i j with lt | rfl | lt
      · simp [beforeJ i hi lt, lowI] at highI
      · simp [lowI] at highJ
      · simp [beforeI j hj lt, lowJ] at highJ

/-- As many variables are in use, and the same valuations satisfy the clauses. -/
structure Cnf.Equivalent (f g : Cnf) : Prop where
  numVars : g.numVars = f.numVars
  models : ∀ ν, g.holds ν = f.holds ν

namespace Search

variable {f g : Cnf} (equivalent : f.Equivalent g)
include equivalent

theorem LeastModel.unique {ls : List Lit} {m m' : Array Bool} (least : LeastModel f ls m)
    (least' : LeastModel g ls m') : m' = m := by
  have width' : width g ls = width f ls := by rw [width, width, equivalent.numVars]
  have size : m'.size = m.size := by rw [least'.size, least.size, width']
  have below : LexLe (width f ls - 1) (valuation m) (valuation m') := by
    apply least.least
    exact ⟨(equivalent.models _).symm.trans least'.satisfies.1, least'.satisfies.2⟩
  have above : LexLe (width f ls - 1) (valuation m') (valuation m) := by
    rw [← width']
    apply least'.least
    exact ⟨(equivalent.models _).trans least.satisfies.1, least.satisfies.2⟩
  have same : ∀ v, v < m.size → valuation m' v = valuation m v := by
    intro v inside
    by_cases zero : v = 0
    · rw [zero, least.zero, least'.zero]
    · have le : v ≤ width f ls - 1 := by
        rw [least.size] at inside
        omega
      exact above.antisymm below (by omega) le
  apply Array.ext size
  intro i inside' inside
  simpa [valuation, Array.getD_eq_getD_getElem?, inside, inside'] using same i inside

variable (proper : f.Proper) (proper' : g.Proper)
include proper proper'

/-- The search finds the same model in both, or none in either. -/
theorem model?_congr {ls : List Lit} (positive : ∀ l ∈ ls, 1 ≤ l.var) :
    model? g ls = model? f ls := by
  have satisfies (ν : Valuation) : Satisfies g ls ν ↔ Satisfies f ls ν := by
    rw [Satisfies, Satisfies, equivalent.models]
  cases found : model? f ls with
  | none =>
    rw [model?_eq_none_iff proper positive] at found
    rw [model?_eq_none_iff proper' positive]
    rintro ⟨ν, model⟩
    exact found ⟨ν, (satisfies ν).mp model⟩
  | some m =>
    have least := leastModel_of_model? proper positive found
    cases found' : model? g ls with
    | none =>
      rw [model?_eq_none_iff proper' positive] at found'
      exact absurd ⟨_, (satisfies _).mpr least.satisfies⟩ found'
    | some m' =>
      have least' := leastModel_of_model? proper' positive found'
      rw [least.unique equivalent least']

theorem shrinkCore_congr {kept rest : List Lit} (positive : ∀ l ∈ kept ++ rest, 1 ≤ l.var) :
    shrinkCore g kept rest = shrinkCore f kept rest := by
  induction rest generalizing kept with
  | nil => rfl
  | cons l rest ih =>
    have without : (kept ++ rest).Sublist (kept ++ l :: rest) :=
      (List.sublist_cons_self l rest).append_left kept
    have positive' : ∀ k ∈ kept ++ rest, 1 ≤ k.var := fun k mem => positive k (without.mem mem)
    have sat : satisfiable g (kept ++ rest) = satisfiable f (kept ++ rest) := by
      rw [satisfiable, satisfiable, model?_congr equivalent proper proper' positive']
    have stays : shrinkCore g (kept ++ [l]) rest = shrinkCore f (kept ++ [l]) rest :=
      ih (by simpa using positive)
    rw [shrinkCore, shrinkCore, sat, stays, ih positive']

end Search

/-- Solvers that hold equivalent stores and have the same tally go on alike. -/
theorem ExhaustiveSolver.solve_congr {s s' : ExhaustiveSolver}
    (equivalent : s.cnf.Equivalent s'.cnf) (proper : s.cnf.Proper) (proper' : s'.cnf.Proper)
    (tally : s'.tally = s.tally) {ls : List Lit} (positive : ∀ l ∈ ls, 1 ≤ l.var) :
    (s'.solve ls).1 = (s.solve ls).1 ∧ (s'.solve ls).2.model = (s.solve ls).2.model ∧
      (s'.solve ls).2.tally = (s.solve ls).2.tally := by
  have model := Search.model?_congr equivalent proper proper' positive
  have core : shrinkCore s'.cnf [] ls = shrinkCore s.cnf [] ls :=
    Search.shrinkCore_congr equivalent proper proper' positive
  rw [solve, solve, model, core, tally]
  cases Search.model? s.cnf ls <;> exact ⟨rfl, rfl, rfl⟩

end MaxSat

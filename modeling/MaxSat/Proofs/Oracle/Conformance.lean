import MaxSat.Oracle.Exhaustive
import MaxSat.Proofs.Search.LeastModel

/-!
# Oracles that answer rightly

An oracle conforms if it hands out consecutive ids, keeps the clauses it is given
and answers calls on literals in use rightly. Which model or core it picks is
left open: a model is any one, a core any refuted part of the assumptions
without repetitions. The exhaustive solver conforms.
-/

namespace MaxSat

/-- Some valuation satisfies the clauses and the assumed literals. -/
def Consistent (cs : List Clause) (ls : List Lit) : Prop :=
  ∃ ν : Valuation, (∀ c ∈ cs, Clause.holds ν c = true) ∧ ∀ l ∈ ls, l.holds ν = true

theorem Consistent.mono {cs : List Clause} {ls ks : List Lit} (subset : ∀ l ∈ ks, l ∈ ls)
    (consistent : Consistent cs ls) : Consistent cs ks := by
  obtain ⟨ν, clauses, literals⟩ := consistent
  exact ⟨ν, clauses, fun l mem => literals l (subset l mem)⟩

/-- The right answers to a call on assumptions `ls`, for an oracle with clauses `cs` and `n`
variables whose last model is `value`. -/
inductive Reply.Right (cs : List Clause) (ls : List Lit) (n : Nat) (value : Nat → Option Bool) :
    Reply → Prop
  | sat (ν : Valuation) (clauses : ∀ c ∈ cs, Clause.holds ν c = true)
      (literals : ∀ l ∈ ls, l.holds ν = true)
      (values : ∀ v, 1 ≤ v → v ≤ n → value v = some (ν v)) : Right cs ls n value .sat
  | unsat (core : List Lit) (distinct : core.Nodup) (subset : ∀ l ∈ core, l ∈ ls)
      (refuted : ¬ Consistent cs core) : Right cs ls n value (.unsat (some core))

/-- Literals of variables in use. -/
def InUse (n : Nat) (ls : List Lit) : Prop := ∀ l ∈ ls, 1 ≤ l.var ∧ l.var ≤ n

/-- `Holds s cs` says that the oracle in state `s` has been given the clauses `cs`. -/
structure Conforming (σ : Type) [SatOracle σ] (Holds : σ → List Clause → Prop) : Prop where
  reserve : ∀ {s cs}, Holds s cs → ∀ n, Holds (SatOracle.reserve s n) cs ∧
    SatOracle.numVars (SatOracle.reserve s n) = max (SatOracle.numVars s) n
  freshVar : ∀ {s cs}, Holds s cs → SatOracle.numVars s < maxVar →
    (SatOracle.freshVar s).1 = SatOracle.numVars s + 1 ∧
      SatOracle.numVars (SatOracle.freshVar s).2 = SatOracle.numVars s + 1 ∧
      Holds (SatOracle.freshVar s).2 cs
  addClause : ∀ {s cs c}, Holds s cs → InUse (SatOracle.numVars s) c →
    Holds (SatOracle.addClause s c) (cs ++ [c]) ∧
      SatOracle.numVars (SatOracle.addClause s c) = SatOracle.numVars s
  solve : ∀ {s cs ls}, Holds s cs → ls.Nodup → InUse (SatOracle.numVars s) ls →
    let next := (SatOracle.solve s ls).2
    Holds next cs ∧ SatOracle.numVars next = SatOracle.numVars s ∧
      (SatOracle.solve s ls).1.Right cs ls (SatOracle.numVars s) (SatOracle.value next)

theorem satisfiable_iff {f : Cnf} {ls : List Lit} (proper : f.Proper)
    (positive : ∀ l ∈ ls, 1 ≤ l.var) :
    Search.satisfiable f ls = true ↔ Consistent f.clauses ls := by
  have none_ := Search.model?_eq_none_iff proper positive
  have same : (∃ ν, Search.Satisfies f ls ν) ↔ Consistent f.clauses ls :=
    exists_congr fun ν => and_congr Cnf.holds_iff Iff.rfl
  rw [same] at none_
  rw [Search.satisfiable, Option.isSome_iff_ne_none, ne_eq, none_, Classical.not_not]

/-- The literals that stay are a part of the given ones, in order, and still refuted. -/
theorem shrinkCore_spec {f : Cnf} (proper : f.Proper) {kept rest : List Lit}
    (positive : ∀ l ∈ kept ++ rest, 1 ≤ l.var) (refuted : ¬ Consistent f.clauses (kept ++ rest)) :
    (shrinkCore f kept rest).Sublist (kept ++ rest) ∧
      ¬ Consistent f.clauses (shrinkCore f kept rest) := by
  induction rest generalizing kept with
  | nil =>
    rw [List.append_nil] at refuted ⊢
    exact ⟨.refl kept, refuted⟩
  | cons l rest ih =>
    have without : (kept ++ rest).Sublist (kept ++ l :: rest) :=
      (List.Sublist.refl kept).append (List.sublist_cons_self l rest)
    rw [shrinkCore]
    split
    · have regroup : kept ++ [l] ++ rest = kept ++ l :: rest := by simp
      have tail := ih (regroup ▸ positive) (regroup ▸ refuted)
      rwa [regroup] at tail
    · rename_i unsat
      have positive' : ∀ k ∈ kept ++ rest, 1 ≤ k.var := fun k mem => positive k (without.mem mem)
      have tail := ih positive' fun consistent =>
        unsat ((satisfiable_iff proper positive').mpr consistent)
      exact ⟨tail.1.trans without, tail.2⟩

namespace ExhaustiveSolver

/-- The store has just the clauses given, over variables in use. -/
def Holds (s : ExhaustiveSolver) (cs : List Clause) : Prop :=
  s.cnf.clauses = cs ∧ s.cnf.Proper

theorem holds_nil : Holds {} [] := ⟨rfl, nofun⟩

theorem value_of_model {s : ExhaustiveSolver} {m : Array Bool} (last : s.model = some m) {v : Nat}
    (inside : v < m.size) : s.value v = some (valuation m v) := by
  simp [value, last, valuation, Array.getD_eq_getD_getElem?, inside]

theorem solve_right {s : ExhaustiveSolver} {cs : List Clause} {ls : List Lit} (holds : s.Holds cs)
    (distinct : ls.Nodup) (inUse : InUse s.cnf.numVars ls) :
    (s.solve ls).2.Holds cs ∧ (s.solve ls).2.cnf.numVars = s.cnf.numVars ∧
      (s.solve ls).1.Right cs ls s.cnf.numVars (s.solve ls).2.value := by
  obtain ⟨rfl, proper⟩ := holds
  have positive : ∀ l ∈ ls, 1 ≤ l.var := fun l mem => (inUse l mem).1
  rw [solve]
  split
  · rename_i m found
    obtain ⟨size, -, satisfies, -⟩ := Search.leastModel_of_model? proper positive found
    refine ⟨⟨rfl, proper⟩, rfl, .sat (valuation m) (Cnf.holds_iff.mp satisfies.1) satisfies.2 ?_⟩
    intro v _ hv
    refine value_of_model rfl ?_
    rw [size, Search.width]
    omega
  · rename_i none_
    have refuted : ¬ Consistent s.cnf.clauses ([] ++ ls) := by
      rw [List.nil_append, ← satisfiable_iff proper positive, Search.satisfiable, none_]
      simp
    obtain ⟨sublist, coreRefuted⟩ := shrinkCore_spec proper positive refuted
    exact ⟨⟨rfl, proper⟩, rfl,
      .unsat _ (distinct.sublist sublist) (fun l mem => sublist.mem mem) coreRefuted⟩

theorem conforming : Conforming ExhaustiveSolver Holds where
  reserve {s cs} holds n :=
    ⟨⟨holds.1, holds.2.mono rfl (Nat.le_max_left _ _)⟩, rfl⟩
  freshVar {s cs} holds room := by
    have next : min (s.cnf.numVars + 1) lastId = s.cnf.numVars + 1 := by
      refine Nat.min_eq_left (Nat.le_trans (Nat.succ_le_of_lt room) ?_)
      decide
    refine ⟨next, next, holds.1, holds.2.mono rfl ?_⟩
    change s.cnf.numVars ≤ min (s.cnf.numVars + 1) lastId
    omega
  addClause {s cs c} holds inUse := by
    obtain ⟨rfl, proper⟩ := holds
    refine ⟨⟨rfl, proper.addClause fun l mem => (inUse l mem).1⟩, ?_⟩
    exact Nat.max_eq_left (Clause.maxVar_le fun l mem => (inUse l mem).2)
  solve holds distinct inUse := solve_right holds distinct inUse

end ExhaustiveSolver

end MaxSat

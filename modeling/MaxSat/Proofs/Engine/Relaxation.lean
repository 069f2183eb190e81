import MaxSat.Engine.Run
import MaxSat.Proofs.Formula.WellFormed
import MaxSat.Proofs.Oracle.Conformance

/-!
# Clauses relaxed in an oracle

`Encodes` says what an oracle has been given: the hard clauses and, for a first
part of the soft clauses, the clause weakened by a variable of its own. Models of
these clauses under assumed relaxation variables are the feasible valuations that
satisfy the assumed clauses. The other way round a feasible valuation extends
to the relaxation variables by the truth of their clauses, so refuted
assumptions name clauses that cannot all be satisfied.
-/

namespace MaxSat

/-- No literal is about variable 0. -/
structure Formula.Proper (f : Formula) : Prop where
  hard : ∀ h ∈ f.hard, ∀ l ∈ h.clause, 1 ≤ l.var
  soft : ∀ s ∈ f.soft, ∀ l ∈ s.clause, 1 ≤ l.var

/-- What a run relies on if the relaxation variables start after `base`. -/
structure Formula.Fits (f : Formula) (base : Nat) : Prop where
  wellFormed : f.WellFormed
  proper : f.Proper
  above : f.numVars ≤ base
  room : base + f.soft.length ≤ maxVar

/-- The soft clause as the oracle is given it. -/
def Relaxation.clause (x : Relaxation) : Clause := x.soft.clause ++ [Lit.neg x.var]

/-- All clauses that the oracle is given. -/
def Formula.store (f : Formula) (xs : List Relaxation) : List Clause :=
  f.hard.map HardClause.clause ++ xs.map Relaxation.clause

/-- The oracle in state `s` holds the hard clauses and the relaxations `xs`, whose variables
are the ones after `base`. -/
structure Encodes {σ : Type} [SatOracle σ] (Holds : σ → List Clause → Prop) (f : Formula)
    (base : Nat) (s : σ) (xs : List Relaxation) : Prop where
  holds : Holds s (f.store xs)
  numVars : SatOracle.numVars s = base + xs.length
  vars : xs.map Relaxation.var = List.range' (base + 1) xs.length
  softs : xs.map Relaxation.soft <+: f.soft

/-- The literals assume clauses among the given relaxations. -/
def Assumes (xs : List Relaxation) (ls : List Lit) : Prop :=
  ∀ l ∈ ls, ∃ x ∈ xs, l = Lit.pos x.var

theorem Assumes.mono {xs ys : List Relaxation} {ls : List Lit} (subset : xs ⊆ ys)
    (assumes : Assumes xs ls) : Assumes ys ls := by
  intro l mem
  obtain ⟨x, hx, lit⟩ := assumes l mem
  exact ⟨x, subset hx, lit⟩

/-- The relaxations whose clauses a valuation falsifies. -/
def falsified (xs : List Relaxation) (ν : Valuation) : List Relaxation :=
  xs.filter fun x => !Clause.holds ν x.soft.clause

theorem mem_falsified {xs : List Relaxation} {ν : Valuation} {x : Relaxation} :
    x ∈ falsified xs ν ↔ x ∈ xs ∧ Clause.holds ν x.soft.clause = false := by
  simp [falsified]

/-- A valuation of the variables up to `base`, extended to the relaxation variables: each is
true if its clause is. -/
def extend (base : Nat) (xs : List Relaxation) (ν : Valuation) : Valuation := fun v =>
  if v ≤ base then ν v else !((falsified xs ν).map Relaxation.var).contains v

theorem eqUpTo_extend (base : Nat) (xs : List Relaxation) (ν : Valuation) :
    EqUpTo base (extend base xs ν) ν := fun v hv => by simp [extend, hv]

namespace Encodes

variable {σ : Type} [SatOracle σ] {Holds : σ → List Clause → Prop} {f : Formula} {base : Nat}
  {s : σ} {xs : List Relaxation}

theorem distinct (encodes : Encodes Holds f base s xs) : (xs.map Relaxation.var).Nodup := by
  rw [encodes.vars]
  exact List.nodup_range'

theorem eq_of_var (encodes : Encodes Holds f base s xs) {x y : Relaxation} (hx : x ∈ xs)
    (hy : y ∈ xs) (same : x.var = y.var) : x = y :=
  List.inj_on_of_nodup_map encodes.distinct hx hy same

theorem var_bounds (encodes : Encodes Holds f base s xs) {x : Relaxation} (mem : x ∈ xs) :
    base < x.var ∧ x.var ≤ SatOracle.numVars s := by
  have inRange : x.var ∈ List.range' (base + 1) xs.length := by
    rw [← encodes.vars]
    exact List.mem_map_of_mem mem
  rw [List.mem_range'_1] at inRange
  rw [encodes.numVars]
  omega

theorem soft_mem (encodes : Encodes Holds f base s xs) {x : Relaxation} (mem : x ∈ xs) :
    x.soft ∈ f.soft :=
  encodes.softs.subset (List.mem_map_of_mem mem)

theorem length_le (encodes : Encodes Holds f base s xs) : xs.length ≤ f.soft.length := by
  have le := encodes.softs.length_le
  rwa [List.length_map] at le

/-- Assumed relaxation variables are in use. -/
theorem inUse (encodes : Encodes Holds f base s xs) {ls : List Lit}
    (assumes : Assumes xs ls) : InUse (SatOracle.numVars s) ls := by
  intro l mem
  obtain ⟨x, hx, rfl⟩ := assumes l mem
  have bounds := encodes.var_bounds hx
  exact ⟨Nat.succ_le_of_lt (Nat.zero_lt_of_lt bounds.1), bounds.2⟩

theorem feasible_of_model {μ : Valuation} (model : ∀ c ∈ f.store xs, Clause.holds μ c = true) :
    f.feasible μ = true := by
  refine Formula.feasible_iff.mpr fun h mem => model h.clause ?_
  exact List.mem_append_left _ (List.mem_map_of_mem mem)

/-- The clause of an assumed variable is true. -/
theorem soft_of_model {μ : Valuation} (model : ∀ c ∈ f.store xs, Clause.holds μ c = true)
    {x : Relaxation} (mem : x ∈ xs) (assumed : (Lit.pos x.var).holds μ = true) :
    Clause.holds μ x.soft.clause = true := by
  have relaxed := model x.clause (List.mem_append_right _ (List.mem_map_of_mem mem))
  rw [Lit.holds_pos] at assumed
  simpa [Relaxation.clause, assumed] using relaxed

theorem extend_var (encodes : Encodes Holds f base s xs) (ν : Valuation) {x : Relaxation}
    (mem : x ∈ xs) : extend base xs ν x.var = Clause.holds ν x.soft.clause := by
  have past : ¬ x.var ≤ base := Nat.not_le_of_lt (encodes.var_bounds mem).1
  rw [extend, if_neg past]
  cases truth : Clause.holds ν x.soft.clause with
  | false => simpa using ⟨x, mem_falsified.mpr ⟨mem, truth⟩, rfl⟩
  | true =>
    simp only [Bool.not_eq_true', List.contains_eq_mem, decide_eq_false_iff_not, List.mem_map]
    rintro ⟨y, hy, same⟩
    obtain ⟨memY, false_⟩ := mem_falsified.mp hy
    rw [encodes.eq_of_var memY mem same, truth] at false_
    cases false_

theorem model_of_feasible (encodes : Encodes Holds f base s xs) (fits : f.Fits base)
    {ν : Valuation} (feasible : f.feasible ν = true) :
    ∀ c ∈ f.store xs, Clause.holds (extend base xs ν) c = true := by
  have same {c : Clause} (ids : ∀ l ∈ c, l.var ≤ f.numVars) :
      Clause.holds (extend base xs ν) c = Clause.holds ν c :=
    Clause.holds_of_eqUpTo (eqUpTo_extend base xs ν) fun l mem =>
      Nat.le_trans (ids l mem) fits.above
  intro c mem
  rcases List.mem_append.mp mem with hard | relaxed
  · obtain ⟨h, hh, rfl⟩ := List.mem_map.mp hard
    rw [same (fits.wellFormed.hardIds h hh)]
    exact Formula.feasible_iff.mp feasible h hh
  · obtain ⟨x, hx, rfl⟩ := List.mem_map.mp relaxed
    rw [Relaxation.clause, Clause.holds_append,
      same (fits.wellFormed.softIds _ (encodes.soft_mem hx))]
    simp [encodes.extend_var ν hx]

/-- If the assumptions are refuted, every feasible valuation falsifies the clause of one of
them. In particular there is none if nothing is assumed. -/
theorem exists_falsified (encodes : Encodes Holds f base s xs) (fits : f.Fits base)
    {core : List Lit} (assumes : Assumes xs core)
    (refuted : ¬ Consistent (f.store xs) core) {ν : Valuation} (feasible : f.feasible ν = true) :
    ∃ x ∈ falsified xs ν, Lit.pos x.var ∈ core := by
  by_contra none_
  refine refuted ⟨extend base xs ν, encodes.model_of_feasible fits feasible, fun l mem => ?_⟩
  obtain ⟨x, hx, rfl⟩ := assumes l mem
  rw [Lit.holds_pos, encodes.extend_var ν hx]
  by_contra false_
  exact none_ ⟨x, mem_falsified.mpr ⟨hx, by simpa using false_⟩, mem⟩

end Encodes

theorem Encodes.relax {σ : Type} [SatOracle σ] {Holds : σ → List Clause → Prop} {f : Formula}
    {base : Nat} {s : σ} {xs : List Relaxation} (conforming : Conforming σ Holds)
    (fits : f.Fits base) (encodes : Encodes Holds f base s xs) {soft : SoftClause}
    (next : xs.map Relaxation.soft ++ [soft] <+: f.soft) :
    let fresh := SatOracle.freshVar s
    let x : Relaxation := ⟨fresh.1, soft⟩
    Encodes Holds f base (SatOracle.addClause fresh.2 x.clause) (xs ++ [x]) := by
  intro fresh x
  have count : xs.length < f.soft.length := by
    have le := next.length_le
    simp only [List.length_append, List.length_map, List.length_singleton] at le
    exact le
  have roomy : SatOracle.numVars s < maxVar := by
    have := fits.room
    rw [encodes.numVars]
    omega
  obtain ⟨var, more, holds⟩ := conforming.freshVar encodes.holds roomy
  have inUse : InUse (SatOracle.numVars fresh.2) x.clause := by
    have mem : soft ∈ f.soft := next.subset (by simp)
    intro l hl
    rcases List.mem_append.mp hl with hl | hl
    · have id := fits.wellFormed.softIds soft mem l hl
      have := fits.above
      refine ⟨fits.proper.soft soft mem l hl, ?_⟩
      rw [more, encodes.numVars]
      omega
    · rw [List.mem_singleton.mp hl, Lit.neg, more]
      change 1 ≤ fresh.1 ∧ fresh.1 ≤ _
      rw [var]
      omega
  obtain ⟨stored, unchanged⟩ := conforming.addClause holds inUse
  refine ⟨?_, ?_, ?_, ?_⟩
  · simpa [Formula.store] using stored
  · rw [unchanged, more, encodes.numVars, List.length_append]
    rfl
  · rw [List.map_append, encodes.vars, List.length_append, List.length_singleton,
      List.range'_concat]
    simp only [List.map_cons, List.map_nil, x]
    rw [var, encodes.numVars]
    congr 2
    omega
  · simpa using next

end MaxSat

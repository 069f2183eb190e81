import Mathlib.Order.Bounds.Basic
import MaxSat.Formula.Problem
import MaxSat.Proofs.Formula.Normalize

/-!
# A problem and the formula built from it

A problem is read as declared: hard clauses and clauses of a positive weight at or
above the top have to be true, clauses of a negative weight that reaches the top in
magnitude have to be false, and every other clause costs its weight, of either
sign, where it is false. A weight of zero requires nothing, whatever the top. The
formula has more variables, the selectors, but each valuation of the declared ones
that meets the requirements extends to them in exactly one way, at a cost that
differs by the offset.
-/

namespace MaxSat

namespace Entry

/-- What an entry requires of a valuation. -/
def Required (top : TopWeight) (ν : Valuation) : Entry → Prop
  | hard c _ => Clause.holds ν c = true
  | weighted c w _ =>
    (0 < w → top.admits w = false → Clause.holds ν c = true) ∧
      (w < 0 → top.admits (-w) = false → Clause.holds ν c = false)

/-- What a valuation pays for an entry: the weight of a false clause that is not hard. -/
def cost (top : TopWeight) (ν : Valuation) : Entry → Weight
  | hard _ _ => 0
  | weighted c w _ =>
    if Clause.holds ν c then 0 else if 0 < w && !top.admits w then 0 else w

/-- An entry requires what its hard clause or the clause to be normalized does. -/
theorem required_iff {top : TopWeight} {ν : Valuation} {e : Entry} :
    e.Required top ν ↔
      (∀ h, e.asHard? top = some h → Clause.holds ν h.clause = true) ∧
        ∀ s, e.asNegative? = some s → s.Allowed top ν := by
  cases e with
  | hard c q => simp [Required, asHard?, asNegative?]
  | weighted c w q =>
    by_cases positive : 0 < w
    · have notNegative := not_lt_of_gt positive
      simp [Required, asHard?, asNegative?, positive, notNegative]
    · simp [Required, asHard?, asNegative?, SoftClause.Allowed, positive]

/-- A soft clause and one to be normalized cost the same by both readings. -/
theorem cost_eq (top : TopWeight) (ν : Valuation) (e : Entry) :
    e.cost top ν = ((e.asSoft? top).map (SoftClause.cost ν)).getD 0 +
      (e.asNegative?.map (SoftClause.cost ν)).getD 0 := by
  cases e with
  | hard c q => simp [cost, asSoft?, asNegative?]
  | weighted c w q =>
    by_cases positive : 0 < w
    · cases soft : top.admits w with
      | true => simp [cost, asSoft?, asNegative?, SoftClause.cost, positive, soft]
      | false => simp [cost, asSoft?, asNegative?, positive, soft]
    · simp [cost, asSoft?, asNegative?, SoftClause.cost, positive]

end Entry

namespace Problem

/-- The valuation meets every requirement of the problem. -/
def Meets (p : Problem) (ν : Valuation) : Prop := ∀ e ∈ p.entries, e.Required p.top ν

/-- The cost under the weights as they are declared. -/
def declaredCost (p : Problem) (ν : Valuation) : Weight :=
  Weight.total (p.entries.map (Entry.cost p.top ν))

theorem le_maxVar {p : Problem} {e : Entry} (mem : e ∈ p.entries) {l : Lit} (hl : l ∈ e.clause) :
    l.var ≤ p.maxVar := by
  refine Nat.le_trans (Clause.le_maxVar hl) ?_
  rw [Problem.maxVar]
  generalize p.entries = entries at mem
  induction entries with
  | nil => cases mem
  | cons d entries ih =>
    rw [List.foldr_cons]
    rcases List.mem_cons.mp mem with same | mem
    · subst same
      exact Nat.le_max_left _ _
    · exact Nat.le_trans (ih mem) (Nat.le_max_right _ _)

/-- Clauses that are hard as declared or by their weight. -/
def hards (p : Problem) : List HardClause := p.entries.filterMap (Entry.asHard? p.top)

/-- Clauses of positive weight below the top. -/
def softs (p : Problem) : List SoftClause := p.entries.filterMap (Entry.asSoft? p.top)

theorem hards_ids {p : Problem} {h : HardClause} (mem : h ∈ p.hards) {l : Lit}
    (hl : l ∈ h.clause) : l.var ≤ p.maxVar := by
  obtain ⟨e, he, kind⟩ := List.mem_filterMap.mp mem
  refine le_maxVar he ?_
  cases e with
  | hard c q =>
    cases kind
    exact hl
  | weighted c w q =>
    obtain ⟨-, same⟩ := Option.ite_none_right_eq_some.mp kind
    cases same
    exact hl

theorem mem_softs {p : Problem} {s : SoftClause} (mem : s ∈ p.softs) :
    Entry.weighted s.clause s.weight s.partition ∈ p.entries ∧ 0 < s.weight := by
  obtain ⟨e, he, kind⟩ := List.mem_filterMap.mp mem
  cases e with
  | hard c q => cases kind
  | weighted c w q =>
    obtain ⟨test, same⟩ := Option.ite_none_right_eq_some.mp kind
    cases same
    simp only [Bool.and_eq_true, decide_eq_true_eq] at test
    exact ⟨he, test.1⟩

theorem mem_negatives {p : Problem} {s : SoftClause} (mem : s ∈ p.negatives) :
    Entry.weighted s.clause s.weight s.partition ∈ p.entries ∧ s.weight ≤ 0 := by
  obtain ⟨e, he, kind⟩ := List.mem_filterMap.mp mem
  cases e with
  | hard c q => cases kind
  | weighted c w q =>
    obtain ⟨sign, same⟩ := Option.ite_none_left_eq_some.mp kind
    cases same
    exact ⟨he, not_lt.mp sign⟩

theorem negatives_ids {p : Problem} {s : SoftClause} (mem : s ∈ p.negatives) {l : Lit}
    (hl : l ∈ s.clause) : l.var ≤ p.maxVar :=
  le_maxVar (mem_negatives mem).1 hl

/-- The requirements are those of the hard clauses and of the clauses to be normalized. -/
theorem meets_iff (p : Problem) (ν : Valuation) :
    p.Meets ν ↔ (∀ h ∈ p.hards, Clause.holds ν h.clause = true) ∧
      ∀ s ∈ p.negatives, s.Allowed p.top ν := by
  simp only [Meets, hards, negatives, List.mem_filterMap, Entry.required_iff]
  constructor
  · intro meets
    constructor
    · rintro h ⟨e, mem, kind⟩
      exact (meets e mem).1 h kind
    · rintro s ⟨e, mem, kind⟩
      exact (meets e mem).2 s kind
  · rintro ⟨hards, negatives⟩ e mem
    exact ⟨fun h kind => hards h ⟨e, mem, kind⟩, fun s kind => negatives s ⟨e, mem, kind⟩⟩

/-- The declared cost is that of the soft clauses and of the clauses to be normalized. -/
theorem declaredCost_eq (p : Problem) (ν : Valuation) :
    p.declaredCost ν = (p.softs.map (SoftClause.cost ν)).sum +
      (p.negatives.map (SoftClause.cost ν)).sum := by
  rw [declaredCost, softs, negatives, Weight.total_eq_sum]
  induction p.entries with
  | nil => simp
  | cons e entries ih =>
    rw [List.map_cons, List.sum_cons, ih, Entry.cost_eq]
    cases soft : e.asSoft? p.top <;> cases negative : e.asNegative? <;>
      simp [soft, negative] <;> linarith

/-- What a formula is built from. -/
structure BuildsFrom (p : Problem) (f : Formula) (n : Normalized) : Prop where
  normalized : Normalizes p.top p.maxVar p.negatives n
  small : p.maxVar ≤ MaxSat.maxVar
  numVars : f.numVars = n.numVars
  inputVars : f.inputVars = p.maxVar
  hard : f.hard = p.hards ++ n.hard
  soft : f.soft = (p.softs ++ n.soft).mergeSort fun a b => a.partition ≤ b.partition
  offset : f.offset = Weight.total (p.negatives.map SoftClause.weight)

theorem buildsFrom_of_build {p : Problem} {f : Formula} (built : p.build = .ok f) :
    ∃ n, p.BuildsFrom f n := by
  rw [build] at built
  split at built
  · cases built
  · rename_i small
    split at built
    · cases built
    · rename_i n done
      cases built
      exact ⟨n, normalizes_of_ok done, Nat.le_of_not_lt small, rfl, rfl, rfl, rfl, rfl⟩

namespace BuildsFrom

variable {p : Problem} {f : Formula} {n : Normalized} (from_ : p.BuildsFrom f n)
include from_

theorem feasible_iff {ν : Valuation} :
    f.feasible ν = true ↔ (∀ h ∈ p.hards, Clause.holds ν h.clause = true) ∧
      ∀ h ∈ n.hard, Clause.holds ν h.clause = true := by
  simp [Formula.feasible_iff, from_.hard, or_imp, forall_and]

theorem cost_eq (ν : Valuation) :
    f.cost ν = (p.softs.map (SoftClause.cost ν)).sum + (n.soft.map (SoftClause.cost ν)).sum := by
  have perm := (List.mergeSort_perm (p.softs ++ n.soft) fun a b => a.partition ≤ b.partition).map
    (SoftClause.cost ν)
  rw [Formula.cost_eq_sum, from_.soft, perm.sum_eq, List.map_append, List.sum_append]

/-- Requirements and costs hang on the declared variables only. -/
theorem meets_congr {μ ν : Valuation} (same : EqUpTo f.inputVars μ ν) :
    p.Meets μ ↔ p.Meets ν := by
  rw [from_.inputVars] at same
  rw [meets_iff, meets_iff]
  refine and_congr (forall₂_congr fun h mem => ?_) (forall₂_congr fun s mem => ?_)
  · rw [Clause.holds_of_eqUpTo same fun l hl => hards_ids mem hl]
  · exact SoftClause.allowed_congr same fun l hl => negatives_ids mem hl

theorem declaredCost_congr {μ ν : Valuation} (same : EqUpTo f.inputVars μ ν) :
    p.declaredCost μ = p.declaredCost ν := by
  rw [from_.inputVars] at same
  rw [declaredCost_eq, declaredCost_eq]
  congr 2
  · exact List.map_congr_left fun s mem =>
      SoftClause.cost_congr same fun l hl => le_maxVar (mem_softs mem).1 hl
  · exact List.map_congr_left fun s mem =>
      SoftClause.cost_congr same fun l hl => negatives_ids mem hl

theorem meets_of_feasible {μ : Valuation} (feasible : f.feasible μ = true) : p.Meets μ := by
  obtain ⟨hards, hold⟩ := from_.feasible_iff.mp feasible
  exact (p.meets_iff μ).mpr ⟨hards, (from_.normalized.sound hold).1⟩

theorem exists_feasible {ν : Valuation} (meets : p.Meets ν) :
    ∃ μ, EqUpTo f.inputVars μ ν ∧ f.feasible μ = true := by
  obtain ⟨hards, allowed⟩ := (p.meets_iff ν).mp meets
  obtain ⟨μ, same, hold⟩ := from_.normalized.extend (fun s mem l hl => negatives_ids mem hl)
    (fun s mem => (mem_negatives mem).2) allowed
  refine ⟨μ, from_.inputVars ▸ same, from_.feasible_iff.mpr ⟨fun h mem => ?_, hold⟩⟩
  rw [Clause.holds_of_eqUpTo same fun l hl => hards_ids mem hl]
  exact hards h mem

theorem feasible_unique {μ ν : Valuation} (feasibleμ : f.feasible μ = true)
    (feasibleν : f.feasible ν = true) (same : EqUpTo f.inputVars μ ν) :
    EqUpTo f.numVars μ ν := by
  rw [from_.numVars]
  exact from_.normalized.unique (fun s mem l hl => negatives_ids mem hl)
    (from_.feasible_iff.mp feasibleμ).2 (from_.feasible_iff.mp feasibleν).2 (from_.inputVars ▸ same)

theorem cost_add_offset {μ : Valuation} (feasible : f.feasible μ = true) :
    f.cost μ + f.offset = p.declaredCost μ := by
  have cost := (from_.normalized.sound (from_.feasible_iff.mp feasible).2).2
  rw [from_.cost_eq, from_.offset, declaredCost_eq, ← cost, add_assoc, Weight.total_eq_sum]

/-- A valuation pays least of all that meet the requirements exactly if its extension pays
least of all feasible ones. -/
theorem least_iff {μ ν : Valuation} (same : EqUpTo f.inputVars μ ν)
    (feasible : f.feasible μ = true) :
    (∀ ν', p.Meets ν' → p.declaredCost ν ≤ p.declaredCost ν') ↔
      ∀ μ', f.feasible μ' = true → f.cost μ ≤ f.cost μ' := by
  rw [← from_.declaredCost_congr same, ← from_.cost_add_offset feasible]
  constructor
  · intro least μ' feasible'
    have le := least μ' (from_.meets_of_feasible feasible')
    rw [← from_.cost_add_offset feasible'] at le
    exact le_of_add_le_add_right le
  · intro least ν' meets
    obtain ⟨μ', same', feasible'⟩ := from_.exists_feasible meets
    rw [← from_.declaredCost_congr same', ← from_.cost_add_offset feasible']
    exact add_le_add_left (least μ' feasible') f.offset

theorem isLeast_iff (x : Weight) :
    IsLeast {c | ∃ ν, p.Meets ν ∧ p.declaredCost ν = c} (x + f.offset) ↔
      IsLeast {c | ∃ μ, f.feasible μ = true ∧ f.cost μ = c} x := by
  constructor
  · rintro ⟨⟨ν, meets, cost⟩, least⟩
    obtain ⟨μ, same, feasible⟩ := from_.exists_feasible meets
    have pays : f.cost μ = x := by
      rw [← from_.declaredCost_congr same, ← from_.cost_add_offset feasible] at cost
      exact add_right_cancel cost
    refine ⟨⟨μ, feasible, pays⟩, ?_⟩
    rintro c ⟨μ', feasible', rfl⟩
    rw [← pays]
    refine (from_.least_iff same feasible).mp (fun ν' meets' => ?_) μ' feasible'
    exact cost ▸ least ⟨ν', meets', rfl⟩
  · rintro ⟨⟨μ, feasible, rfl⟩, least⟩
    refine ⟨⟨μ, from_.meets_of_feasible feasible, (from_.cost_add_offset feasible).symm⟩, ?_⟩
    rintro c ⟨ν', meets', rfl⟩
    rw [from_.cost_add_offset feasible]
    exact (from_.least_iff (.refl _ μ) feasible).mpr
      (fun μ' feasible' => least ⟨μ', feasible', rfl⟩) ν' meets'

end BuildsFrom

/-- A valuation of the declared variables meets the requirements exactly if it extends to a
feasible one. The extension is then unique, and it costs the declared cost less the offset;
so both sides have the same least costs up to the offset, at the same valuations. -/
theorem build_keeps_problem {p : Problem} {f : Formula} (built : p.build = .ok f) :
    (∀ ν, p.Meets ν ↔ ∃ μ, EqUpTo f.inputVars μ ν ∧ f.feasible μ = true) ∧
      (∀ ν μ, EqUpTo f.inputVars μ ν → f.feasible μ = true →
        (∀ μ', EqUpTo f.inputVars μ' ν → f.feasible μ' = true → EqUpTo f.numVars μ' μ) ∧
          f.cost μ + f.offset = p.declaredCost ν ∧
          ((∀ ν', p.Meets ν' → p.declaredCost ν ≤ p.declaredCost ν') ↔
            ∀ μ', f.feasible μ' = true → f.cost μ ≤ f.cost μ')) ∧
      ∀ x, IsLeast {c | ∃ ν, p.Meets ν ∧ p.declaredCost ν = c} (x + f.offset) ↔
        IsLeast {c | ∃ μ, f.feasible μ = true ∧ f.cost μ = c} x := by
  obtain ⟨n, from_⟩ := buildsFrom_of_build built
  refine ⟨fun ν => ⟨from_.exists_feasible, ?_⟩, fun ν μ same feasible => ⟨?_, ?_, ?_⟩,
    from_.isLeast_iff⟩
  · rintro ⟨μ, same, feasible⟩
    exact (from_.meets_congr same).mp (from_.meets_of_feasible feasible)
  · intro μ' same' feasible'
    exact from_.feasible_unique feasible' feasible (same'.trans same.symm)
  · rw [from_.cost_add_offset feasible, from_.declaredCost_congr same]
  · exact from_.least_iff same feasible

/-- A clause with a selector, a unit that becomes hard at the top, an empty clause and a
clause that is hard by its weight, side by side. -/
theorem build_keeps_problem_selector :
    let p : Problem := {
      top := .finite 5
      entries := [.weighted [Lit.pos 1, Lit.neg 2] (-3) 0, .weighted [Lit.pos 2] (-5) 1,
        .weighted [] (-1) 0, .weighted [Lit.pos 1, Lit.pos 2, Lit.pos 1] 7 0] }
    let f : Formula := {
      numVars := 3
      inputVars := 2
      hard := [⟨[Lit.pos 1, Lit.pos 2, Lit.pos 1], 0⟩, ⟨[Lit.pos 3, Lit.neg 1], 0⟩,
        ⟨[Lit.pos 3, Lit.pos 2], 0⟩, ⟨[Lit.neg 3, Lit.pos 1, Lit.neg 2], 0⟩, ⟨[Lit.neg 2], 1⟩]
      soft := [⟨[Lit.neg 3], 3, 0⟩]
      numPartitions := 2
      topWeight := 5
      offset := -9
      comments := [] }
    p.build = .ok f ∧ ∀ ν, p.Meets ν ↔ ∃ μ, EqUpTo f.inputVars μ ν ∧ f.feasible μ = true := by
  intro p f
  have built : p.build = .ok f := by
    unfold f
    cbv
  exact ⟨built, (build_keeps_problem built).1⟩

end Problem

end MaxSat

import Mathlib.Tactic.Linarith
import MaxSat.Formula.Normalize
import MaxSat.Proofs.Basic

/-!
# What normalization keeps

A selector is equivalent to its clause wherever its definition holds, so a
derived unit is falsified exactly if the clause it stands for is satisfied. Hence
the hard clauses that normalization adds bind the declared variables no further
than the weights require, and fix every selector; and the derived soft clauses
cost what the declared ones cost less the sum of the declared weights.
-/

namespace MaxSat

/-- What a valuation pays for a clause: its weight, unless the clause is true. -/
def SoftClause.cost (ν : Valuation) (s : SoftClause) : Weight :=
  if Clause.holds ν s.clause then 0 else s.weight

theorem Formula.cost_eq_sum (f : Formula) (ν : Valuation) :
    f.cost ν = (f.soft.map (SoftClause.cost ν)).sum := by
  rw [Formula.cost, Weight.total_eq_sum]
  induction f.soft with
  | nil => rfl
  | cons s soft ih =>
    cases h : Clause.holds ν s.clause with
    | true => simp [SoftClause.cost, h, ih]
    | false => simp [SoftClause.cost, h, ih]

theorem Formula.feasible_iff {f : Formula} {ν : Valuation} :
    f.feasible ν = true ↔ ∀ h ∈ f.hard, Clause.holds ν h.clause = true := by
  simp [Formula.feasible]

namespace Normalized

section Unit

variable (top : TopWeight) (l : Lit) (w : Weight) (p : Nat) (n : Normalized)

@[simp] theorem numVars_addUnit : (addUnit top l w p n).numVars = n.numVars := by
  cases admitted : top.admits w <;> simp [addUnit, admitted]

theorem mem_hard_addUnit {h : HardClause} : h ∈ (addUnit top l w p n).hard ↔
    (top.admits w = false ∧ h = ⟨[l.negate], p⟩) ∨ h ∈ n.hard := by
  cases admitted : top.admits w with
  | true => simp [addUnit, admitted]
  | false => simp [addUnit, admitted]

theorem mem_soft_addUnit {s : SoftClause} : s ∈ (addUnit top l w p n).soft ↔
    (top.admits w = true ∧ s = ⟨[l.negate], w, p⟩) ∨ s ∈ n.soft := by
  cases admitted : top.admits w with
  | true => simp [addUnit, admitted]
  | false => simp [addUnit, admitted]

/-- A unit that the top does not admit has to be true; one that it admits costs its weight
where the literal holds. -/
theorem hard_addUnit_iff (ν : Valuation) :
    (∀ h ∈ (addUnit top l w p n).hard, Clause.holds ν h.clause = true) ↔
      (top.admits w = false → l.holds ν = false) ∧
        ∀ h ∈ n.hard, Clause.holds ν h.clause = true := by
  simp only [mem_hard_addUnit]
  constructor
  · intro hold
    refine ⟨fun hard => ?_, fun h mem => hold h (Or.inr mem)⟩
    simpa using hold _ (Or.inl ⟨hard, rfl⟩)
  · rintro ⟨unit, hold⟩ h (⟨hard, rfl⟩ | mem)
    · simpa using unit hard
    · exact hold h mem

theorem cost_addUnit (ν : Valuation) :
    ((addUnit top l w p n).soft.map (SoftClause.cost ν)).sum =
      (if top.admits w && l.holds ν then w else 0) + (n.soft.map (SoftClause.cost ν)).sum := by
  cases admitted : top.admits w with
  | true =>
    cases truth : l.holds ν with
    | true => simp [addUnit, SoftClause.cost, admitted, truth]
    | false => simp [addUnit, SoftClause.cost, admitted, truth]
  | false => simp [addUnit, admitted]

end Unit

/-- The defining clauses say that the selector has the truth value of the clause. -/
theorem definition_hold_iff (ν : Valuation) (sel : Nat) (c : Clause) (p : Nat) :
    (∀ h ∈ definition sel c p, Clause.holds ν h.clause = true) ↔ ν sel = Clause.holds ν c := by
  simp only [definition, List.mem_append, List.mem_map, List.mem_singleton]
  constructor
  · intro hold
    have back := hold _ (Or.inr rfl)
    cases holds : Clause.holds ν c with
    | true =>
      obtain ⟨l, mem, hl⟩ := Clause.holds_iff.mp holds
      simpa [hl] using hold _ (Or.inl ⟨l, mem, rfl⟩)
    | false => simpa [holds] using back
  · rintro same h (⟨l, mem, rfl⟩ | rfl)
    · cases hl : l.holds ν with
      | false => simp [hl]
      | true => simp [same, Clause.holds_iff.mpr ⟨l, mem, hl⟩]
    · cases holds : Clause.holds ν c with
      | true => simp [holds]
      | false => simp [same, holds]

/-- The result for a clause with a selector, from the result for the clauses after it. -/
def addSelector (top : TopWeight) (sel : Nat) (s : SoftClause) (n : Normalized) : Normalized :=
  let unit := addUnit top (Lit.pos sel) (-s.weight) s.partition n
  { unit with
    selectors := unit.selectors + 1
    hard := definition sel s.clause s.partition ++ unit.hard }

@[simp] theorem numVars_addSelector (top : TopWeight) (sel : Nat) (s : SoftClause)
    (n : Normalized) : (addSelector top sel s n).numVars = n.numVars :=
  numVars_addUnit top _ _ _ n

theorem hard_addSelector_iff (top : TopWeight) (sel : Nat) (s : SoftClause) (n : Normalized)
    (ν : Valuation) :
    (∀ h ∈ (addSelector top sel s n).hard, Clause.holds ν h.clause = true) ↔
      ν sel = Clause.holds ν s.clause ∧ (top.admits (-s.weight) = false → ν sel = false) ∧
        ∀ h ∈ n.hard, Clause.holds ν h.clause = true := by
  have unit := hard_addUnit_iff top (Lit.pos sel) (-s.weight) s.partition n ν
  rw [Lit.holds_pos] at unit
  rw [← unit, ← definition_hold_iff ν sel s.clause s.partition]
  simp [addSelector, List.mem_append, or_imp, forall_and]

/-- No derived clause has a variable above `k`. -/
structure IdsUpTo (k : Nat) (n : Normalized) : Prop where
  hard : ∀ h ∈ n.hard, ∀ l ∈ h.clause, l.var ≤ k
  soft : ∀ s ∈ n.soft, ∀ l ∈ s.clause, l.var ≤ k

theorem IdsUpTo.addUnit {k : Nat} {n : Normalized} (ids : n.IdsUpTo k) {l : Lit} (id : l.var ≤ k)
    (top : TopWeight) (w : Weight) (p : Nat) : (n.addUnit top l w p).IdsUpTo k := by
  have unit : ∀ m ∈ ([l.negate] : Clause), m.var ≤ k := by
    intro m mem
    rw [List.mem_singleton.mp mem]
    exact id
  constructor
  · intro h mem
    rcases (mem_hard_addUnit top l w p n).mp mem with ⟨-, rfl⟩ | mem
    · exact unit
    · exact ids.hard h mem
  · intro s mem
    rcases (mem_soft_addUnit top l w p n).mp mem with ⟨-, rfl⟩ | mem
    · exact unit
    · exact ids.soft s mem

theorem definition_ids {k sel : Nat} (selector : sel ≤ k) {c : Clause}
    (ids : ∀ l ∈ c, l.var ≤ k) (p : Nat) :
    ∀ h ∈ definition sel c p, ∀ l ∈ h.clause, l.var ≤ k := by
  simp only [definition, List.mem_append, List.mem_map, List.mem_singleton]
  rintro h (⟨m, mem, rfl⟩ | rfl) l hl
  · simp only [List.mem_cons, List.not_mem_nil, or_false] at hl
    rcases hl with rfl | rfl
    · exact selector
    · exact ids m mem
  · rcases List.mem_cons.mp hl with rfl | hl
    · exact selector
    · exact ids l hl

theorem IdsUpTo.addSelector {k sel : Nat} {n : Normalized} (ids : n.IdsUpTo k)
    (selector : sel ≤ k) {s : SoftClause} (clause : ∀ l ∈ s.clause, l.var ≤ k) (top : TopWeight) :
    (n.addSelector top sel s).IdsUpTo k := by
  have unit := ids.addUnit (l := Lit.pos sel) selector top (-s.weight) s.partition
  refine ⟨fun h mem => ?_, unit.soft⟩
  rcases List.mem_append.mp mem with mem | mem
  · exact definition_ids selector clause s.partition h mem
  · exact unit.hard h mem

end Normalized

/-- `Normalizes top n negs r`: with `n` variables in use, the clauses `negs` give `r`. One rule
for each way in which a clause is treated. -/
inductive Normalizes (top : TopWeight) : Nat → List SoftClause → Normalized → Prop
  | nil (n : Nat) : Normalizes top n [] { numVars := n }
  | void {n : Nat} {s : SoftClause} {rest : List SoftClause} {r : Normalized}
      (void : s.weight = 0 ∨ s.clause = []) (tail : Normalizes top n rest r) :
      Normalizes top n (s :: rest) r
  | unit {n : Nat} {s : SoftClause} {rest : List SoftClause} {r : Normalized} {l : Lit}
      (nonzero : s.weight ≠ 0) (clause : s.clause = [l]) (tail : Normalizes top n rest r) :
      Normalizes top n (s :: rest) (.addUnit top l (-s.weight) s.partition r)
  | wide {n : Nat} {s : SoftClause} {rest : List SoftClause} {r : Normalized}
      (nonzero : s.weight ≠ 0) (wide : 2 ≤ s.clause.length) (room : n + 1 ≤ maxVar)
      (tail : Normalizes top (n + 1) rest r) :
      Normalizes top n (s :: rest) (.addSelector top (n + 1) s r)

theorem except_map_eq_ok {ε α β : Type} {f : α → β} {x : Except ε α} {b : β}
    (h : x.map f = .ok b) : ∃ a, x = .ok a ∧ f a = b := by
  cases x with
  | error e => cases h
  | ok a =>
    cases h
    exact ⟨a, rfl, rfl⟩

theorem normalizes_of_ok {top : TopWeight} {n : Nat} {negs : List SoftClause} {r : Normalized}
    (done : normalize top n negs = .ok r) : Normalizes top n negs r := by
  induction negs generalizing n r with
  | nil =>
    cases done
    exact .nil n
  | cons s rest ih =>
    rw [normalize] at done
    dsimp only at done
    split at done
    · rename_i zero
      exact .void (Or.inl (neg_eq_zero.mp zero)) (ih done)
    · rename_i nonzero
      have nonzero : s.weight ≠ 0 := fun zero => nonzero (neg_eq_zero.mpr zero)
      split at done
      · rename_i empty
        exact .void (Or.inr empty) (ih done)
      · rename_i l single
        obtain ⟨t, tail, rfl⟩ := except_map_eq_ok done
        exact .unit nonzero single (ih tail)
      · rename_i notEmpty notSingle
        split at done
        · cases done
        · rename_i room
          obtain ⟨t, tail, rfl⟩ := except_map_eq_ok done
          refine .wide nonzero ?_ (Nat.le_of_not_lt room) (ih tail)
          match clause : s.clause with
          | [] => exact absurd clause notEmpty
          | [l] => exact absurd clause (notSingle l)
          | _ :: _ :: _ => simp

namespace Normalizes

variable {top : TopWeight} {n : Nat} {negs : List SoftClause} {r : Normalized}

theorem le_numVars (norm : Normalizes top n negs r) : n ≤ r.numVars := by
  induction norm with
  | nil => exact Nat.le_refl _
  | void _ _ ih => exact ih
  | unit _ _ _ ih => simpa using ih
  | wide _ _ _ _ ih =>
    rw [Normalized.numVars_addSelector]
    omega

theorem numVars_le (norm : Normalizes top n negs r) (room : n ≤ maxVar) : r.numVars ≤ maxVar := by
  induction norm with
  | nil => exact room
  | void _ _ ih => exact ih room
  | unit _ _ _ ih => simpa using ih room
  | wide _ _ more _ ih => simpa using ih more

/-- Derived clauses use declared variables and selectors only. -/
theorem ids (norm : Normalizes top n negs r) (declared : ∀ s ∈ negs, ∀ l ∈ s.clause, l.var ≤ n) :
    r.IdsUpTo r.numVars := by
  induction norm with
  | nil => exact ⟨nofun, nofun⟩
  | void _ _ ih => exact ih fun s mem => declared s (by simp [mem])
  | @unit n s rest r k _ clause tail ih =>
    rw [Normalized.numVars_addUnit]
    have inClause : k.var ≤ n := declared s (by simp) k (by simp [clause])
    refine .addUnit (ih fun s mem => declared s (by simp [mem])) ?_ _ _ _
    exact Nat.le_trans inClause tail.le_numVars
  | @wide n s rest r _ _ _ tail ih =>
    rw [Normalized.numVars_addSelector]
    have selector : n + 1 ≤ r.numVars := tail.le_numVars
    refine .addSelector (ih ?_) selector ?_ _
    · intro t mem l hl
      exact Nat.le_succ_of_le (declared t (by simp [mem]) l hl)
    · intro l hl
      have := declared s (by simp) l hl
      omega

/-- Derived weights are the declared ones with the sign turned. -/
theorem weight_pos (norm : Normalizes top n negs r) (sign : ∀ s ∈ negs, s.weight ≤ 0) :
    ∀ s ∈ r.soft, 0 < s.weight := by
  induction norm with
  | nil => nofun
  | void _ _ ih => exact ih fun s mem => sign s (by simp [mem])
  | @unit n s rest r k nonzero _ _ ih =>
    have negative := lt_of_le_of_ne (sign s (by simp)) nonzero
    simp only [Normalized.mem_soft_addUnit]
    rintro t (⟨-, rfl⟩ | mem)
    · simpa using negative
    · exact ih (fun s mem => sign s (by simp [mem])) t mem
  | @wide n s rest r nonzero _ _ _ ih =>
    have negative := lt_of_le_of_ne (sign s (by simp)) nonzero
    simp only [Normalized.addSelector, Normalized.mem_soft_addUnit]
    rintro t (⟨-, rfl⟩ | mem)
    · simpa using negative
    · exact ih (fun s mem => sign s (by simp [mem])) t mem

end Normalizes

/-- A clause whose negated weight the top does not admit has to be false. -/
def SoftClause.Allowed (top : TopWeight) (ν : Valuation) (s : SoftClause) : Prop :=
  s.weight < 0 → top.admits (-s.weight) = false → Clause.holds ν s.clause = false

/-- Valuations that are equal on the clause's variables agree on whether it is allowed. -/
theorem SoftClause.allowed_congr {top : TopWeight} {n : Nat} {μ ν : Valuation}
    (same : EqUpTo n μ ν) {s : SoftClause} (ids : ∀ l ∈ s.clause, l.var ≤ n) :
    s.Allowed top μ ↔ s.Allowed top ν := by
  rw [SoftClause.Allowed, SoftClause.Allowed, Clause.holds_of_eqUpTo same ids]

theorem SoftClause.cost_congr {n : Nat} {μ ν : Valuation} (same : EqUpTo n μ ν) {s : SoftClause}
    (ids : ∀ l ∈ s.clause, l.var ≤ n) : s.cost μ = s.cost ν := by
  rw [SoftClause.cost, SoftClause.cost, Clause.holds_of_eqUpTo same ids]

/-- The unit derived from a literal that is as true as the clause costs what the clause does,
up to the declared weight. -/
theorem unit_cost_add {top : TopWeight} {ν : Valuation} {s : SoftClause} {b : Bool}
    (same : b = Clause.holds ν s.clause) (bound : top.admits (-s.weight) = false → b = false) :
    (if top.admits (-s.weight) && b then -s.weight else 0) + s.weight = s.cost ν := by
  rw [SoftClause.cost, ← same]
  cases b with
  | false => simp
  | true =>
    have soft : top.admits (-s.weight) = true := by
      cases h : top.admits (-s.weight) with
      | true => rfl
      | false => exact absurd (bound h) (by simp)
    simp [soft]

namespace Normalizes

variable {top : TopWeight} {n : Nat} {negs : List SoftClause} {r : Normalized}

/-- Where the derived hard clauses hold, every clause is allowed and the costs agree. -/
theorem sound (norm : Normalizes top n negs r) {ν : Valuation}
    (hold : ∀ h ∈ r.hard, Clause.holds ν h.clause = true) :
    (∀ s ∈ negs, s.Allowed top ν) ∧
      (r.soft.map (SoftClause.cost ν)).sum + (negs.map SoftClause.weight).sum =
        (negs.map (SoftClause.cost ν)).sum := by
  induction norm with
  | nil => simp
  | @void n s rest r void _ ih =>
    obtain ⟨allowed, cost⟩ := ih hold
    constructor
    · intro t mem
      rcases List.mem_cons.mp mem with rfl | mem
      · intro negative _
        rcases void with zero | empty
        · exact absurd zero (ne_of_lt negative)
        · rw [empty, Clause.holds_nil]
      · exact allowed t mem
    · have own : s.weight = s.cost ν := by
        rcases void with zero | empty
        · simp [SoftClause.cost, zero]
        · simp [SoftClause.cost, empty]
      simp only [List.map_cons, List.sum_cons]
      linarith
  | @unit n s rest r l _ clause _ ih =>
    obtain ⟨bound, holdTail⟩ := (Normalized.hard_addUnit_iff top l _ _ r ν).mp hold
    obtain ⟨allowed, cost⟩ := ih holdTail
    have same : l.holds ν = Clause.holds ν s.clause := by simp [clause]
    constructor
    · intro t mem
      rcases List.mem_cons.mp mem with rfl | mem
      · exact fun _ hard => same ▸ bound hard
      · exact allowed t mem
    · have own := unit_cost_add same bound
      rw [Normalized.cost_addUnit]
      simp only [List.map_cons, List.sum_cons]
      linarith
  | @wide n s rest r _ _ _ _ ih =>
    obtain ⟨same, bound, holdTail⟩ := (Normalized.hard_addSelector_iff top (n + 1) s r ν).mp hold
    obtain ⟨allowed, cost⟩ := ih holdTail
    constructor
    · intro t mem
      rcases List.mem_cons.mp mem with rfl | mem
      · exact fun _ hard => same ▸ bound hard
      · exact allowed t mem
    · have own := unit_cost_add same bound
      have unit := Normalized.cost_addUnit top (Lit.pos (n + 1)) (-s.weight) s.partition r ν
      rw [Lit.holds_pos] at unit
      simp only [Normalized.addSelector, unit, List.map_cons, List.sum_cons]
      linarith

/-- The declared variables fix the selectors. -/
theorem unique (norm : Normalizes top n negs r)
    (declared : ∀ s ∈ negs, ∀ l ∈ s.clause, l.var ≤ n) {μ ν : Valuation}
    (holdμ : ∀ h ∈ r.hard, Clause.holds μ h.clause = true)
    (holdν : ∀ h ∈ r.hard, Clause.holds ν h.clause = true) (same : EqUpTo n μ ν) :
    EqUpTo r.numVars μ ν := by
  induction norm with
  | nil => exact same
  | void _ _ ih => exact ih (fun s mem => declared s (by simp [mem])) holdμ holdν same
  | @unit n s rest r l _ _ _ ih =>
    rw [Normalized.numVars_addUnit]
    exact ih (fun s mem => declared s (by simp [mem]))
      ((Normalized.hard_addUnit_iff top l _ _ r μ).mp holdμ).2
      ((Normalized.hard_addUnit_iff top l _ _ r ν).mp holdν).2 same
  | @wide n s rest r _ _ _ _ ih =>
    obtain ⟨selμ, -, tailμ⟩ := (Normalized.hard_addSelector_iff top (n + 1) s r μ).mp holdμ
    obtain ⟨selν, -, tailν⟩ := (Normalized.hard_addSelector_iff top (n + 1) s r ν).mp holdν
    have clause := Clause.holds_of_eqUpTo same (declared s (by simp))
    rw [Normalized.numVars_addSelector]
    refine ih (fun t mem l hl => Nat.le_succ_of_le (declared t (by simp [mem]) l hl)) tailμ tailν ?_
    intro v hv
    by_cases last : v = n + 1
    · rw [last, selμ, selν, clause]
    · exact same v (by omega)

/-- Where every clause is allowed, selectors can be given values under which the derived hard
clauses hold. -/
theorem extend (norm : Normalizes top n negs r)
    (declared : ∀ s ∈ negs, ∀ l ∈ s.clause, l.var ≤ n) (sign : ∀ s ∈ negs, s.weight ≤ 0)
    {ν : Valuation} (allowed : ∀ s ∈ negs, s.Allowed top ν) :
    ∃ μ, EqUpTo n μ ν ∧ ∀ h ∈ r.hard, Clause.holds μ h.clause = true := by
  induction norm generalizing ν with
  | nil => exact ⟨ν, .refl _ ν, nofun⟩
  | void _ _ ih =>
    exact ih (fun s mem => declared s (by simp [mem])) (fun s mem => sign s (by simp [mem]))
      fun s mem => allowed s (by simp [mem])
  | @unit n s rest r l nonzero clause _ ih =>
    obtain ⟨μ, same, hold⟩ := ih (fun s mem => declared s (by simp [mem]))
      (fun s mem => sign s (by simp [mem])) fun s mem => allowed s (by simp [mem])
    refine ⟨μ, same, (Normalized.hard_addUnit_iff top l _ _ r μ).mpr ⟨fun hard => ?_, hold⟩⟩
    have negative := lt_of_le_of_ne (sign s (by simp)) nonzero
    have allowedμ := (SoftClause.allowed_congr same (declared s (by simp))).mpr
      (allowed s (by simp)) negative hard
    simpa [clause] using allowedμ
  | @wide n s rest r nonzero _ _ _ ih =>
    have inClause : ∀ l ∈ s.clause, l.var ≤ n := declared s (by simp)
    -- the selector gets the value of its clause before the later clauses are looked at
    let ξ : Valuation := fun v => if v = n + 1 then Clause.holds ν s.clause else ν v
    have start : EqUpTo n ξ ν := by
      intro v hv
      have ne : v ≠ n + 1 := by omega
      simp [ξ, ne]
    obtain ⟨μ, same, hold⟩ := ih
      (fun t mem l hl => Nat.le_succ_of_le (declared t (by simp [mem]) l hl))
      (fun t mem => sign t (by simp [mem]))
      (fun t mem => (SoftClause.allowed_congr start (declared t (by simp [mem]))).mpr
        (allowed t (by simp [mem])))
    have whole : EqUpTo n μ ν := (same.mono (Nat.le_succ n)).trans start
    have sel : μ (n + 1) = Clause.holds μ s.clause := by
      rw [same (n + 1) (Nat.le_refl _), Clause.holds_of_eqUpTo whole inClause]
      simp [ξ]
    refine ⟨μ, whole, (Normalized.hard_addSelector_iff top (n + 1) s r μ).mpr
      ⟨sel, fun hard => ?_, hold⟩⟩
    have negative := lt_of_le_of_ne (sign s (by simp)) nonzero
    rw [sel]
    exact (SoftClause.allowed_congr whole inClause).mpr (allowed s (by simp)) negative hard

end Normalizes

end MaxSat

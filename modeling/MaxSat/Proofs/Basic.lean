import Mathlib.Algebra.BigOperators.Group.Finset.Basic
import Mathlib.Algebra.Order.Ring.Rat
import Mathlib.Data.List.Sort
import MaxSat.Literal
import MaxSat.Weight

/-!
# Truth of clauses, totals and sorted lists

The truth of a clause hangs on its own variables only, so valuations that are
equal up to its largest one cannot tell it apart.

Totals of weights are sums. Sorting is stable, so elements with one key keep their
order, and distinct numbers come out strictly ascending.
-/

namespace MaxSat

/-- The valuations give the same value to every variable up to `n`. -/
def EqUpTo (n : Nat) (μ ν : Valuation) : Prop := ∀ v, v ≤ n → μ v = ν v

theorem EqUpTo.refl (n : Nat) (ν : Valuation) : EqUpTo n ν ν := fun _ _ => rfl

theorem EqUpTo.symm {n : Nat} {μ ν : Valuation} (h : EqUpTo n μ ν) : EqUpTo n ν μ :=
  fun v hv => (h v hv).symm

theorem EqUpTo.trans {n : Nat} {μ ν ξ : Valuation} (hμ : EqUpTo n μ ν) (hν : EqUpTo n ν ξ) :
    EqUpTo n μ ξ := fun v hv => (hμ v hv).trans (hν v hv)

theorem EqUpTo.mono {m n : Nat} {μ ν : Valuation} (h : EqUpTo n μ ν) (le : m ≤ n) :
    EqUpTo m μ ν := fun v hv => h v (Nat.le_trans hv le)

@[simp] theorem Lit.holds_negate (ν : Valuation) (l : Lit) : l.negate.holds ν = !l.holds ν := by
  cases h : ν l.var <;> cases hp : l.positive <;> simp [Lit.holds, Lit.negate, h, hp]

@[simp] theorem Lit.holds_pos (ν : Valuation) (v : Nat) : (Lit.pos v).holds ν = ν v := by
  simp [Lit.holds, Lit.pos]

@[simp] theorem Lit.holds_neg (ν : Valuation) (v : Nat) : (Lit.neg v).holds ν = !ν v := by
  simp [Lit.holds, Lit.neg]

theorem Lit.holds_congr {μ ν : Valuation} {l : Lit} (same : μ l.var = ν l.var) :
    l.holds μ = l.holds ν := by
  rw [Lit.holds, Lit.holds, same]

namespace Clause

theorem holds_iff {ν : Valuation} {c : Clause} :
    Clause.holds ν c = true ↔ ∃ l ∈ c, l.holds ν = true := by
  simp [Clause.holds]

@[simp] theorem holds_nil (ν : Valuation) : Clause.holds ν [] = false := rfl

@[simp] theorem holds_cons (ν : Valuation) (l : Lit) (c : Clause) :
    Clause.holds ν (l :: c) = (l.holds ν || Clause.holds ν c) := rfl

@[simp] theorem holds_append (ν : Valuation) (c d : Clause) :
    Clause.holds ν (c ++ d) = (Clause.holds ν c || Clause.holds ν d) := by
  simp [Clause.holds]

theorem holds_congr {μ ν : Valuation} {c : Clause} (same : ∀ l ∈ c, μ l.var = ν l.var) :
    Clause.holds μ c = Clause.holds ν c := by
  induction c with
  | nil => rfl
  | cons l c ih =>
    rw [holds_cons, holds_cons, Lit.holds_congr (same l (by simp)),
      ih fun k mem => same k (by simp [mem])]

theorem holds_of_eqUpTo {n : Nat} {μ ν : Valuation} (same : EqUpTo n μ ν) {c : Clause}
    (ids : ∀ l ∈ c, l.var ≤ n) : Clause.holds μ c = Clause.holds ν c :=
  holds_congr fun l mem => same l.var (ids l mem)

theorem le_maxVar {c : Clause} {l : Lit} (mem : l ∈ c) : l.var ≤ Clause.maxVar c := by
  induction c with
  | nil => cases mem
  | cons k c ih =>
    rw [Clause.maxVar]
    rcases List.mem_cons.mp mem with same | mem
    · subst same
      exact Nat.le_max_left _ _
    · exact Nat.le_trans (ih mem) (Nat.le_max_right _ _)

theorem maxVar_le {c : Clause} {n : Nat} (bound : ∀ l ∈ c, l.var ≤ n) :
    Clause.maxVar c ≤ n := by
  induction c with
  | nil => exact Nat.zero_le n
  | cons l c ih =>
    rw [Clause.maxVar]
    exact Nat.max_le.mpr ⟨bound l (by simp), ih fun k mem => bound k (by simp [mem])⟩

end Clause

@[simp] theorem Weight.total_eq_sum (ws : List Weight) : Weight.total ws = ws.sum := rfl

/-- Elements with one key are in order wherever they stand, so sorting keeps their list. -/
theorem filter_mergeSort {α : Type} (key : α → Nat) (k : Nat) (xs : List α) :
    (xs.mergeSort fun a b => key a ≤ key b).filter (key · = k) = xs.filter (key · = k) := by
  have inOrder : (xs.filter (key · = k)).Pairwise fun a b => decide (key a ≤ key b) = true := by
    refine List.pairwise_of_forall_mem_list fun a ha b hb => ?_
    have hka := List.of_mem_filter ha
    have hkb := List.of_mem_filter hb
    simp only [decide_eq_true_eq] at hka hkb ⊢
    omega
  have sublist : (xs.filter (key · = k)).Sublist (xs.mergeSort fun a b => key a ≤ key b) :=
    List.sublist_mergeSort (fun a b c => by simpa using Nat.le_trans)
      (fun a b => by simpa using Nat.le_total (key a) (key b)) inOrder List.filter_sublist
  have within : (xs.filter (key · = k)).Sublist
      ((xs.mergeSort fun a b => key a ≤ key b).filter (key · = k)) := by
    simpa using sublist.filter (key · = k)
  have perm := (List.mergeSort_perm xs fun a b => key a ≤ key b).filter (key · = k)
  exact (within.eq_of_length perm.length_eq.symm).symm

/-- Distinct numbers come out strictly ascending. -/
theorem ascending_mergeSort {xs : List Nat} (distinct : xs.Nodup) :
    (xs.mergeSort fun a b => a ≤ b).Pairwise (· < ·) := by
  have sorted : (xs.mergeSort fun a b => a ≤ b).SortedLE := List.sortedLE_mergeSort
  exact (sorted.sortedLT_of_nodup ((List.mergeSort_perm xs _).nodup_iff.mpr distinct)).pairwise

end MaxSat

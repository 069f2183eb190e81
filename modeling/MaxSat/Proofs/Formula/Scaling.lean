import MaxSat.Proofs.Formula.Lookup

/-!
# Building from scaled weights

Weights decide whether a declared clause is hard, soft or to be normalized, and
whether a derived unit is admitted. Each of these compares a weight with zero or
with the top, so a positive factor on the declared weights and on a finite top
changes none of them. The formula built is the same up to the factor on its soft
weights and its offset. Only the top of a problem that declares none, which is
one more than all soft weights, is not a multiple.
-/

namespace MaxSat

def SoftClause.scale (q : Weight) (s : SoftClause) : SoftClause :=
  { s with weight := q * s.weight }

def TopWeight.scale (q : Weight) : TopWeight → TopWeight
  | finite top => finite (q * top)
  | infinite => infinite

def Entry.scale (q : Weight) : Entry → Entry
  | hard c p => hard c p
  | weighted c w p => weighted c (q * w) p

/-- The problem with every declared weight and a finite top multiplied by `q`. -/
def Problem.scale (q : Weight) (p : Problem) : Problem :=
  { p with top := p.top.scale q, entries := p.entries.map (Entry.scale q) }

theorem Entry.clause_scale (q : Weight) (e : Entry) : (e.scale q).clause = e.clause := by
  cases e <;> rfl

theorem Entry.partition_scale (q : Weight) (e : Entry) : (e.scale q).partition = e.partition := by
  cases e <;> rfl

namespace Problem

theorem maxVar_scale (q : Weight) (p : Problem) : (p.scale q).maxVar = p.maxVar := by
  simp only [maxVar, scale, List.foldr_map, Entry.clause_scale]

theorem numPartitions_scale (q : Weight) (p : Problem) :
    (p.scale q).numPartitions = p.numPartitions := by
  simp only [numPartitions, scale, List.foldr_map, Entry.partition_scale]

end Problem

theorem map_scale_mergeSort (q : Weight) (soft : List SoftClause) :
    (soft.mergeSort fun a b => a.partition ≤ b.partition).map (SoftClause.scale q) =
      (soft.map (SoftClause.scale q)).mergeSort fun a b => a.partition ≤ b.partition :=
  List.map_mergeSort fun _ _ _ _ => rfl

theorem total_scale (q : Weight) (soft : List SoftClause) :
    Weight.total ((soft.map (SoftClause.scale q)).map SoftClause.weight) =
      q * Weight.total (soft.map SoftClause.weight) := by
  rw [Weight.total_eq_sum, Weight.total_eq_sum, ← List.sum_map_mul_left, List.map_map]
  rfl

section Classification

variable {q : Weight} (positive : 0 < q) (top : TopWeight)
include positive

theorem TopWeight.admits_scale (w : Weight) : (top.scale q).admits (q * w) = top.admits w := by
  cases top with
  | infinite => rfl
  | finite t =>
    have lt : q * w < q * t ↔ w < t := mul_lt_mul_iff_right₀ positive
    simp only [scale, admits, lt]

namespace Entry

theorem asHard?_scale (e : Entry) : (e.scale q).asHard? (top.scale q) = e.asHard? top := by
  cases e with
  | hard c p => rfl
  | weighted c w p =>
    simp only [scale, asHard?, mul_pos_iff_of_pos_left positive, top.admits_scale positive]

theorem asSoft?_scale (e : Entry) :
    (e.scale q).asSoft? (top.scale q) = (e.asSoft? top).map (SoftClause.scale q) := by
  cases e with
  | hard c p => rfl
  | weighted c w p =>
    simp only [scale, asSoft?, mul_pos_iff_of_pos_left positive, top.admits_scale positive]
    split <;> rfl

omit top in
theorem asNegative?_scale (e : Entry) :
    (e.scale q).asNegative? = e.asNegative?.map (SoftClause.scale q) := by
  cases e with
  | hard c p => rfl
  | weighted c w p =>
    simp only [scale, asNegative?, mul_pos_iff_of_pos_left positive]
    split <;> rfl

end Entry

omit top in
theorem Problem.negatives_scale (p : Problem) :
    (p.scale q).negatives = p.negatives.map (SoftClause.scale q) := by
  rw [negatives, negatives, scale, List.filterMap_map, List.map_filterMap]
  exact List.filterMap_congr fun e _ => e.asNegative?_scale positive

end Classification

namespace Normalized

def scale (q : Weight) (n : Normalized) : Normalized :=
  { n with soft := n.soft.map (SoftClause.scale q) }

theorem addUnit_scale {q : Weight} (positive : 0 < q) (top : TopWeight) (l : Lit) (w : Weight)
    (p : Nat) (n : Normalized) :
    addUnit (top.scale q) l (q * w) p (n.scale q) = (addUnit top l w p n).scale q := by
  rw [addUnit, addUnit, top.admits_scale positive]
  split <;> rfl

end Normalized

/-- The same clauses get selectors, so the ids run out at the same clause. -/
theorem normalize_scale {q : Weight} (positive : 0 < q) (top : TopWeight) (numVars : Nat)
    (negs : List SoftClause) :
    normalize (top.scale q) numVars (negs.map (SoftClause.scale q)) =
      (normalize top numVars negs).map (Normalized.scale q) := by
  induction negs generalizing numVars with
  | nil => rfl
  | cons s negs ih =>
    have weight : -(s.scale q).weight = q * -s.weight := (mul_neg q s.weight).symm
    have zero : q * -s.weight = 0 ↔ -s.weight = 0 := mul_eq_zero_iff_left positive.ne'
    have clause : (s.scale q).clause = s.clause := rfl
    have partition : (s.scale q).partition = s.partition := rfl
    rw [List.map_cons, normalize, normalize, weight, clause, partition]
    dsimp only
    simp only [zero]
    split
    · exact ih numVars
    · split
      · exact ih numVars
      · rw [ih]
        cases normalize top numVars negs with
        | error _ => rfl
        | ok n => exact congrArg Except.ok (n.addUnit_scale positive top _ _ _)
      · split
        · rfl
        · rw [ih]
          cases normalize top (numVars + 1) negs with
          | error _ => rfl
          | ok n =>
            simp only [Except.map, Normalized.addUnit_scale positive]
            rfl

def Bucket.scale (q : Weight) (b : Bucket) : Bucket :=
  { b with clauses := b.clauses.map (SoftClause.scale q) }

theorem bucketsOf_scale (q : Weight) (soft : List SoftClause) :
    bucketsOf (soft.map (SoftClause.scale q)) = (bucketsOf soft).map (Bucket.scale q) := by
  induction soft with
  | nil => rfl
  | cons s soft ih =>
    rw [List.map_cons, bucketsOf, bucketsOf, ih]
    cases bucketsOf soft with
    | nil => rfl
    | cons b bs =>
      have same : (s.scale q).partition = (b.scale q).partition ↔ s.partition = b.partition :=
        Iff.rfl
      simp only [List.map_cons, same]
      split <;> rfl

theorem rangesFrom_scale (q : Weight) (start : Nat) (bs : List Bucket) :
    rangesFrom start (bs.map (Bucket.scale q)) = rangesFrom start bs := by
  induction bs generalizing start with
  | nil => rfl
  | cons b bs ih =>
    have length : (b.scale q).clauses.length = b.clauses.length := List.length_map _
    rw [List.map_cons, rangesFrom, rangesFrom, length]
    exact congrArg _ (ih _)

namespace Formula

/-- The formula with soft weights and offset multiplied by `q`, for a declared top. -/
def scale (q : Weight) (top : TopWeight) (f : Formula) : Formula :=
  let soft := f.soft.map (SoftClause.scale q)
  { f with soft, topWeight := Problem.resolveTop (top.scale q) soft, offset := q * f.offset }

variable (q : Weight) (top : TopWeight) (f : Formula)

theorem buckets_scale : (f.scale q top).buckets = f.buckets.map (Bucket.scale q) :=
  bucketsOf_scale q f.soft

theorem ranges_scale : (f.scale q top).ranges = f.ranges := by
  rw [ranges, ranges, buckets_scale, rangesFrom_scale]

theorem bucket?_scale {f : Formula} (grouped : Grouped f.soft) (i : Nat) :
    (f.scale q top).bucket? i = (f.bucket? i).map (List.map (SoftClause.scale q)) := by
  have grouped' : Grouped (f.scale q top).soft := List.pairwise_map.mpr grouped
  have count : (f.scale q top).numPartitions = f.numPartitions := rfl
  rw [looksUp_of_grouped grouped i, looksUp_of_grouped grouped' i, count]
  split
  · rw [Option.map_some, scale, List.filter_map]
    rfl
  · rfl

end Formula

namespace Problem

theorem resolveTop_mergeSort (top : TopWeight) (le : SoftClause → SoftClause → Bool)
    (soft : List SoftClause) : resolveTop top (soft.mergeSort le) = resolveTop top soft := by
  cases top with
  | finite w => rfl
  | infinite =>
    have perm := (soft.mergeSort_perm le).map SoftClause.weight
    exact congrArg (1 + ·) perm.sum_eq

/-- The problem and the scaled one are refused alike, or both are built and the formulas
differ by the factor. -/
theorem build_scale {q : Weight} (positive : 0 < q) (p : Problem) :
    (p.scale q).build = p.build.map (Formula.scale q p.top) := by
  have top : (p.scale q).top = p.top.scale q := rfl
  have hard : (p.scale q).entries.filterMap (Entry.asHard? (p.top.scale q)) =
      p.entries.filterMap (Entry.asHard? p.top) := by
    rw [scale, List.filterMap_map]
    exact List.filterMap_congr fun e _ => e.asHard?_scale positive p.top
  have soft : (p.scale q).entries.filterMap (Entry.asSoft? (p.top.scale q)) =
      (p.entries.filterMap (Entry.asSoft? p.top)).map (SoftClause.scale q) := by
    rw [scale, List.filterMap_map, List.map_filterMap]
    exact List.filterMap_congr fun e _ => e.asSoft?_scale positive p.top
  rw [build, build, top, maxVar_scale, numPartitions_scale, negatives_scale positive,
    normalize_scale positive, hard, soft, total_scale]
  split
  · rfl
  · cases normalize p.top p.maxVar p.negatives with
    | error _ => rfl
    | ok n =>
      simp only [Except.map, Normalized.scale, ← List.map_append, Formula.scale]
      rw [map_scale_mergeSort, resolveTop_mergeSort]
      rfl

end Problem

end MaxSat

import Mathlib
import MaxSat.Proofs.Formula.Acceptance
import MaxSat.Proofs.Formula.Derived
import MaxSat.Proofs.Formula.WellFormed

/-!
# Buckets

Sorting by partition is stable, so the soft clauses of a partition stand together
in the order in which they were declared, derived units last. The buckets are
these runs: their ranges cut the soft clauses without a gap, in ascending order of
partitions, and nothing that a problem puts into a bucket is lost or moved.
-/

namespace MaxSat

/-- The clauses stand in the order of their partitions. -/
def Grouped (soft : List SoftClause) : Prop := soft.Pairwise fun a b => a.partition ≤ b.partition

theorem grouped_mergeSort (soft : List SoftClause) :
    Grouped (soft.mergeSort fun a b => a.partition ≤ b.partition) :=
  List.pairwise_mergeSort' (Order.Preimage SoftClause.partition (· ≤ ·)) soft

theorem bucketsOf_cons_of_eq {s : SoftClause} {rest : List SoftClause} {b : Bucket}
    {bs : List Bucket} (later : bucketsOf rest = b :: bs) (same : s.partition = b.partition) :
    bucketsOf (s :: rest) = ⟨b.partition, s :: b.clauses⟩ :: bs := by
  simp [bucketsOf, later, same]

theorem bucketsOf_cons_of_ne {s : SoftClause} {rest : List SoftClause}
    (other : ∀ b ∈ (bucketsOf rest).head?, s.partition ≠ b.partition) :
    bucketsOf (s :: rest) = ⟨s.partition, [s]⟩ :: bucketsOf rest := by
  cases later : bucketsOf rest with
  | nil => simp [bucketsOf, later]
  | cons b bs =>
    have ne := other b (by simp [later])
    simp [bucketsOf, later, ne]

/-- A bucket holds clauses of its partition, and at least one. -/
structure Bucket.Proper (b : Bucket) : Prop where
  nonempty : b.clauses ≠ []
  labels : ∀ s ∈ b.clauses, s.partition = b.partition

theorem proper_bucketsOf (soft : List SoftClause) : ∀ b ∈ bucketsOf soft, b.Proper := by
  induction soft with
  | nil => simp [bucketsOf]
  | cons s rest ih =>
    have single : (⟨s.partition, [s]⟩ : Bucket).Proper := ⟨by simp, by simp⟩
    cases later : bucketsOf rest with
    | nil =>
      rw [bucketsOf_cons_of_ne (by simp [later]), later]
      simpa using single
    | cons b bs =>
      rw [later] at ih
      by_cases same : s.partition = b.partition
      · rw [bucketsOf_cons_of_eq later same]
        intro c mem
        rcases List.mem_cons.mp mem with rfl | mem
        · refine ⟨by simp, fun t inside => ?_⟩
          rcases List.mem_cons.mp inside with rfl | inside
          · exact same
          · exact (ih b (by simp)).labels t inside
        · exact ih c (by simp [mem])
      · rw [bucketsOf_cons_of_ne (by simpa [later] using same), later]
        intro c mem
        rcases List.mem_cons.mp mem with rfl | mem
        · exact single
        · exact ih c mem

/-- Buckets of clauses in order have ascending partitions. -/
theorem ascending_bucketsOf {soft : List SoftClause} (grouped : Grouped soft) :
    (bucketsOf soft).Pairwise fun a b => a.partition < b.partition := by
  induction soft with
  | nil => simp [bucketsOf]
  | cons s rest ih =>
    obtain ⟨below, grouped⟩ := List.pairwise_cons.mp grouped
    have ascending := ih grouped
    -- the clauses of a later bucket stand in the rest
    have least : ∀ b ∈ bucketsOf rest, s.partition ≤ b.partition := by
      intro b mem
      obtain ⟨nonempty, labels⟩ := proper_bucketsOf rest b mem
      obtain ⟨t, inside⟩ := List.exists_mem_of_ne_nil _ nonempty
      rw [← labels t inside]
      refine below t ?_
      rw [← Formula.flatten_buckets rest]
      exact List.mem_flatten.mpr ⟨b.clauses, List.mem_map_of_mem mem, inside⟩
    cases later : bucketsOf rest with
    | nil =>
      rw [bucketsOf_cons_of_ne (by simp [later]), later]
      simp
    | cons b bs =>
      rw [later] at ascending least
      obtain ⟨first, others⟩ := List.pairwise_cons.mp ascending
      by_cases same : s.partition = b.partition
      · rw [bucketsOf_cons_of_eq later same]
        exact List.pairwise_cons.mpr ⟨first, others⟩
      · rw [bucketsOf_cons_of_ne (by simpa [later] using same), later]
        refine List.pairwise_cons.mpr ⟨fun c mem => ?_, ascending⟩
        have le := least b (by simp)
        rcases List.mem_cons.mp mem with rfl | mem
        · exact Nat.lt_of_le_of_ne le same
        · have := first c mem
          show s.partition < c.partition
          omega

/-- A bucket among others of its own partition each is what the partition's filter keeps. -/
theorem filter_flatten_buckets {bs : List Bucket}
    (ascending : bs.Pairwise fun a b => a.partition < b.partition)
    (proper : ∀ b ∈ bs, b.Proper) {b : Bucket} (mem : b ∈ bs) :
    ((bs.map Bucket.clauses).flatten).filter (·.partition = b.partition) = b.clauses := by
  induction bs with
  | nil => cases mem
  | cons c bs ih =>
    obtain ⟨first, others⟩ := List.pairwise_cons.mp ascending
    have labels := (proper c (by simp)).labels
    rw [List.map_cons, List.flatten_cons, List.filter_append]
    rcases List.mem_cons.mp mem with rfl | mem
    · have own : b.clauses.filter (·.partition = b.partition) = b.clauses := by
        refine List.filter_eq_self.mpr fun s inside => ?_
        simpa using labels s inside
      have none : ((bs.map Bucket.clauses).flatten).filter (·.partition = b.partition) = [] := by
        refine List.filter_eq_nil_iff.mpr fun s inside => ?_
        obtain ⟨clauses, found, inside⟩ := List.mem_flatten.mp inside
        obtain ⟨d, later, rfl⟩ := List.mem_map.mp found
        have label := (proper d (by simp [later])).labels s inside
        have := first d later
        simp only [decide_eq_true_eq]
        omega
      rw [own, none, List.append_nil]
    · have none : c.clauses.filter (·.partition = b.partition) = [] := by
        refine List.filter_eq_nil_iff.mpr fun s inside => ?_
        have label := labels s inside
        have := first b mem
        simp only [decide_eq_true_eq]
        omega
      rw [none, List.nil_append]
      exact ih others (fun d later => proper d (by simp [later])) mem

/-- Positions from a start to an end, cut into ranges that are not empty. -/
inductive Tiles : Nat → Nat → List BucketRange → Prop
  | nil (n : Nat) : Tiles n n []
  | cons {r : BucketRange} {n : Nat} {rs : List BucketRange} (nonempty : r.start < r.stop)
      (rest : Tiles r.stop n rs) : Tiles r.start n (r :: rs)

theorem Tiles.le {m n : Nat} {rs : List BucketRange} (tiles : Tiles m n rs) : m ≤ n := by
  induction tiles with
  | nil => exact Nat.le_refl _
  | cons nonempty _ ih => omega

theorem Tiles.stop_le {m n : Nat} {rs : List BucketRange} (tiles : Tiles m n rs) :
    ∀ r ∈ rs, r.stop ≤ n := by
  induction tiles with
  | nil => simp
  | cons _ rest ih =>
    intro r mem
    rcases List.mem_cons.mp mem with rfl | mem
    · exact rest.le
    · exact ih r mem

theorem tiles_rangesFrom {bs : List Bucket} (nonempty : ∀ b ∈ bs, b.clauses ≠ []) (start : Nat) :
    Tiles start (start + ((bs.map Bucket.clauses).flatten).length) (rangesFrom start bs) := by
  induction bs generalizing start with
  | nil => exact .nil start
  | cons b bs ih =>
    have some := List.length_pos_iff.mpr (nonempty b (by simp))
    have rest := ih (fun c mem => nonempty c (by simp [mem])) (start + b.clauses.length)
    rw [List.map_cons, List.flatten_cons, List.length_append, ← Nat.add_assoc]
    exact .cons (r := ⟨b.partition, start, start + b.clauses.length⟩)
      (by show start < start + b.clauses.length; omega) rest

/-- The entries at the positions of a range. -/
def BucketRange.slice (r : BucketRange) (soft : List SoftClause) : List SoftClause :=
  (soft.drop r.start).take (r.stop - r.start)

theorem map_partition_rangesFrom (start : Nat) (bs : List Bucket) :
    (rangesFrom start bs).map BucketRange.partition = bs.map Bucket.partition := by
  induction bs generalizing start with
  | nil => rfl
  | cons b bs ih => simp [rangesFrom, ih]

/-- A range stands for a bucket. -/
theorem slice_rangesFrom (before : List SoftClause) {bs : List Bucket} {r : BucketRange}
    (mem : r ∈ rangesFrom before.length bs) :
    ∃ b ∈ bs, r.partition = b.partition ∧
      r.slice (before ++ (bs.map Bucket.clauses).flatten) = b.clauses := by
  induction bs generalizing before with
  | nil => cases mem
  | cons b bs ih =>
    rw [rangesFrom] at mem
    rcases List.mem_cons.mp mem with rfl | mem
    · exact ⟨b, by simp, rfl, by simp [BucketRange.slice]⟩
    · obtain ⟨c, found, partition, slice⟩ := ih (before ++ b.clauses) (by simpa using mem)
      exact ⟨c, by simp [found], partition, by simpa using slice⟩

namespace Formula

/-- The ranges cut the soft clauses by partition. -/
structure Bucketed (f : Formula) : Prop where
  ascending : f.ranges.Pairwise fun a b => a.partition < b.partition
  tiles : Tiles 0 f.soft.length f.ranges
  labels : ∀ r ∈ f.ranges, ∀ i, r.start ≤ i → i < r.stop →
    ∃ s, f.soft[i]? = some s ∧ s.partition = r.partition

section Ranges

variable {f : Formula} (grouped : Grouped f.soft)
include grouped

/-- A range holds the soft clauses of its partition. -/
theorem slice_of_mem_ranges {r : BucketRange} (mem : r ∈ f.ranges) :
    r.slice f.soft = f.soft.filter (·.partition = r.partition) := by
  obtain ⟨b, found, partition, slice⟩ := slice_rangesFrom [] mem
  rw [List.nil_append, buckets, flatten_buckets] at slice
  have kept := filter_flatten_buckets (ascending_bucketsOf grouped) (proper_bucketsOf f.soft) found
  rw [flatten_buckets] at kept
  rw [slice, partition, kept]

theorem bucketed_of_grouped : f.Bucketed := by
  have tiles : Tiles 0 f.soft.length f.ranges := by
    have nonempty := fun b mem => (proper_bucketsOf f.soft b mem).nonempty
    simpa [ranges, buckets, flatten_buckets] using tiles_rangesFrom nonempty 0
  refine ⟨?_, tiles, ?_⟩
  · have ascending := ascending_bucketsOf grouped
    rw [← List.pairwise_map (f := Bucket.partition) (R := (· < ·))] at ascending
    rw [← List.pairwise_map (f := BucketRange.partition) (R := (· < ·)), ranges,
      map_partition_rangesFrom]
    exact ascending
  · intro r mem i low high
    have bound := tiles.stop_le r mem
    have inside : i < f.soft.length := by omega
    refine ⟨f.soft[i], List.getElem?_eq_getElem inside, ?_⟩
    -- the clause is in the slice, at its place after the start
    have found : f.soft[i] ∈ r.slice f.soft := by
      refine List.mem_of_getElem? (i := i - r.start) ?_
      have place : r.start + (i - r.start) = i := by omega
      rw [BucketRange.slice, List.getElem?_take_of_lt (by omega), List.getElem?_drop, place]
      exact List.getElem?_eq_getElem inside
    rw [slice_of_mem_ranges grouped mem] at found
    simpa using (List.mem_filter.mp found).2

omit grouped in
/-- A partition with a soft clause has a range. -/
theorem exists_range_of_mem {s : SoftClause} (mem : s ∈ f.soft) :
    ∃ r ∈ f.ranges, r.partition = s.partition := by
  rw [← flatten_buckets f.soft] at mem
  obtain ⟨clauses, found, inside⟩ := List.mem_flatten.mp mem
  obtain ⟨b, bucket, rfl⟩ := List.mem_map.mp found
  have listed : b.partition ∈ f.ranges.map BucketRange.partition := by
    rw [ranges, map_partition_rangesFrom]
    exact List.mem_map_of_mem bucket
  obtain ⟨r, range, partition⟩ := List.mem_map.mp listed
  exact ⟨r, range, by rw [partition, (proper_bucketsOf f.soft b bucket).labels s inside]⟩

end Ranges

end Formula

theorem Weight.le_total {ws : List Weight} (nonneg : ∀ w ∈ ws, 0 ≤ w) {w : Weight} (mem : w ∈ ws) :
    w ≤ total ws := by
  rw [total_eq_sum]
  exact List.single_le_sum nonneg w mem

namespace Problem

theorem mem_softs_admitted {p : Problem} {s : SoftClause} (mem : s ∈ p.softs) :
    p.top.admits s.weight = true := by
  obtain ⟨e, -, kind⟩ := List.mem_filterMap.mp mem
  cases e with
  | hard c q => cases kind
  | weighted c w q =>
    obtain ⟨test, same⟩ := Option.ite_none_right_eq_some.mp kind
    cases same
    simp only [Bool.and_eq_true] at test
    exact test.2

/-- A top weight that was declared is above the weights that it admits, and one that was not is
above their sum. -/
theorem lt_resolveTop {top : TopWeight} {soft : List SoftClause}
    (admitted : ∀ s ∈ soft, top.admits s.weight = true) (positive : ∀ s ∈ soft, 0 < s.weight) :
    ∀ s ∈ soft, s.weight < resolveTop top soft := by
  intro s mem
  cases top with
  | finite w => simpa [TopWeight.admits, resolveTop] using admitted s mem
  | infinite =>
    have nonneg : ∀ w ∈ soft.map SoftClause.weight, 0 ≤ w := by
      intro w found
      obtain ⟨t, inside, rfl⟩ := List.mem_map.mp found
      exact le_of_lt (positive t inside)
    have le := Weight.le_total nonneg (List.mem_map_of_mem mem)
    rw [resolveTop]
    linarith

end Problem

namespace Formula

/-- What holds of every formula. A hard clause carries its partition with it, so there are as
many partitions as hard clauses. -/
structure Regular (f : Formula) : Prop where
  bucketed : f.Bucketed
  wellFormed : f.WellFormed
  below : ∀ s ∈ f.soft, s.weight < f.topWeight
  paired : (f.hard.map HardClause.partition).length = (f.hard.map HardClause.clause).length

/-- Without partitions the same holds, with one bucket at most. -/
theorem Regular.mergePartitions {f : Formula} (regular : f.Regular) :
    f.mergePartitions.Regular := by
  have wellFormed := regular.wellFormed
  have origin : ∀ s ∈ f.mergePartitions.soft, ∃ t ∈ f.soft, s = { t with partition := 0 } := by
    intro s mem
    obtain ⟨t, found, rfl⟩ := List.mem_map.mp mem
    exact ⟨t, found, rfl⟩
  refine ⟨bucketed_of_grouped ?_, ⟨wellFormed.hardIds, ?_, ?_, wellFormed.inputs, wellFormed.room⟩,
    ?_, regular.paired⟩
  · refine List.pairwise_map.mpr ?_
    exact List.pairwise_of_forall_mem_list fun _ _ _ _ => Nat.le_refl 0
  · intro s mem
    obtain ⟨t, found, rfl⟩ := origin s mem
    exact wellFormed.softIds t found
  · intro s mem
    obtain ⟨t, found, rfl⟩ := origin s mem
    exact wellFormed.positive t found
  · intro s mem
    obtain ⟨t, found, rfl⟩ := origin s mem
    exact regular.below t found

end Formula

namespace Problem

/-- What a problem puts into a bucket: its own soft clauses, then derived units. -/
def bucket (p : Problem) (q : Nat) : List SoftClause :=
  p.softs.filter (·.partition = q) ++
    (derivedUnits p.top p.maxVar p.negatives).filter (·.partition = q)

/-- The formula has the buckets of the problem. -/
structure Fills (p : Problem) (f : Formula) : Prop where
  regular : f.Regular
  contents : ∀ r ∈ f.ranges, r.slice f.soft = p.bucket r.partition
  elsewhere : ∀ q, (∀ r ∈ f.ranges, r.partition ≠ q) → p.bucket q = []

theorem fills_of_build {p : Problem} {f : Formula} (built : p.build = .ok f) : p.Fills f := by
  have wellFormed := Formula.Made.wellFormed (Or.inl ⟨p, built⟩)
  obtain ⟨-, n, done, rfl⟩ := build_eq_ok_iff.mp built
  have norm := normalizes_of_ok done
  have grouped : Grouped (p.assemble n).soft := grouped_mergeSort _
  have kept : ∀ q, (p.assemble n).soft.filter (·.partition = q) = p.bucket q := by
    intro q
    rw [assemble, filter_mergeSort, List.filter_append, norm.soft_eq, bucket]
  refine ⟨⟨Formula.bucketed_of_grouped grouped, wellFormed, ?_, by simp⟩, ?_, ?_⟩
  · have admitted : ∀ s ∈ p.softs ++ n.soft, p.top.admits s.weight = true := by
      intro s mem
      rcases List.mem_append.mp mem with mem | mem
      · exact mem_softs_admitted mem
      · exact norm.soft_admitted s mem
    have positive : ∀ s ∈ p.softs ++ n.soft, 0 < s.weight :=
      fun s mem => wellFormed.positive s (List.mem_mergeSort.mpr mem)
    exact fun s mem => lt_resolveTop admitted positive s (List.mem_mergeSort.mp mem)
  · intro r mem
    rw [Formula.slice_of_mem_ranges grouped mem, kept]
  · intro q none
    rw [← kept]
    refine List.filter_eq_nil_iff.mpr fun s mem => ?_
    obtain ⟨r, range, partition⟩ := Formula.exists_range_of_mem mem
    have other := none r range
    simpa [← partition] using other

end Problem

namespace Formula

open Text Grammar

/-- Formulas that are built or read have the buckets of their problem and are regular, and
merging the partitions of a regular formula keeps it so, with all its clauses in order. -/
theorem fills_buckets :
    (∀ (p : Problem) (f : Formula), p.build = .ok f → p.Fills f) ∧
      (∀ (o : ReadOptions) (ls : List Line) (f : Formula), ofLines o ls = .ok f →
        ∃ texts p, ls = texts.map .ok ∧ Declares o texts p ∧ p.Fills f) ∧
      ∀ f : Formula, f.Regular → f.mergePartitions.Regular ∧ f.mergePartitions.hard = f.hard ∧
        f.mergePartitions.soft.map (fun s => (s.clause, s.weight)) =
          f.soft.map fun s => (s.clause, s.weight) := by
  refine ⟨fun p f built => Problem.fills_of_build built, fun o ls f read => ?_, fun f regular => ?_⟩
  · obtain ⟨texts, p, lines, declares, built⟩ := ofLines_eq_ok_iff.mp read
    exact ⟨texts, p, lines, declares, Problem.fills_of_build built⟩
  · exact ⟨regular.mergePartitions, rfl, by simp [mergePartitions]⟩

/-- Two clauses for bucket 3 with one for bucket 0 between them, a clause with a selector, a
unit that becomes soft and one that becomes hard. -/
theorem fills_buckets_selector :
    let text := "p pwcnf 2 6 5 1\n3 2 1 0\n0 -3 1 -2 0\n3 4 2 0\n0 1/2 2 0\n3 -1 2 0\n0 -5 1 0\n"
    let p : Problem := {
      top := .finite 5
      partitions := 2
      entries := [.weighted [Lit.pos 1] 2 3, .weighted [Lit.pos 1, Lit.neg 2] (-3) 0,
        .weighted [Lit.pos 2] 4 3, .weighted [Lit.pos 2] (1/2) 0, .weighted [Lit.pos 2] (-1) 3,
        .weighted [Lit.pos 1] (-5) 0] }
    let f : Formula := {
      numVars := 3
      inputVars := 2
      hard := [⟨[Lit.pos 3, Lit.neg 1], 0⟩, ⟨[Lit.pos 3, Lit.pos 2], 0⟩,
        ⟨[Lit.neg 3, Lit.pos 1, Lit.neg 2], 0⟩, ⟨[Lit.neg 1], 0⟩]
      soft := [⟨[Lit.pos 2], 1/2, 0⟩, ⟨[Lit.neg 3], 3, 0⟩, ⟨[Lit.pos 1], 2, 3⟩,
        ⟨[Lit.pos 2], 4, 3⟩, ⟨[Lit.neg 2], 1, 3⟩]
      numPartitions := 4
      topWeight := 5
      offset := -9
      comments := [] }
    p.build = .ok f ∧ ofLines {} (linesOfString text) = .ok f ∧
      f.ranges = [⟨0, 0, 2⟩, ⟨3, 2, 5⟩] ∧ p.Fills f ∧
      (∃ texts p', linesOfString text = texts.map .ok ∧ Declares {} texts p' ∧ p'.Fills f) ∧
      f.mergePartitions.Regular := by
  intro text p f
  have built : p.build = .ok f := by
    unfold f
    cbv
  have read : ofLines {} (linesOfString text) = .ok f :=
    ofLines_of_lines (n := 7) (by decide +kernel) built
  have fills := fills_buckets.1 p f built
  exact ⟨built, read, by decide, fills, fills_buckets.2.1 {} _ f read,
    (fills_buckets.2.2 f fills.regular).1⟩

end Formula

end MaxSat

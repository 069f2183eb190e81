import MaxSat.Proofs.Formula.RoundTrip

/-!
# Looking up a bucket

Buckets are found by binary search, which relies on their ascending order. An
index that is counted has its bucket, with just the soft clauses of that
partition in order; the bucket is empty if there are none.

One more than the largest index is counted, up to the largest number that a count
can have. So a clause at the very last index, which a file cannot declare but a
problem can, is beyond the count, and a lookup does not find it.
-/

namespace MaxSat

/-- What the search finds is a bucket of the partition, in whichever order they stand. -/
theorem mem_of_searchBucket? {i : Nat} {bs : List Bucket} {b : Bucket}
    (found : searchBucket? i bs = some b) : b ∈ bs ∧ b.partition = i := by
  fun_induction searchBucket? i bs with
  | case1 => cases found
  | case2 bs c above upper same =>
    obtain rfl : c = b := Option.some.inj found
    exact ⟨List.mem_of_mem_drop (upper ▸ List.mem_cons_self), same⟩
  | case3 bs c above upper _ _ ih =>
    obtain ⟨mem, partition⟩ := ih found
    exact ⟨List.mem_of_mem_take mem, partition⟩
  | case4 bs c above upper _ _ ih =>
    obtain ⟨mem, partition⟩ := ih found
    exact ⟨List.mem_of_mem_drop (upper ▸ List.mem_cons_of_mem c mem), partition⟩

/-- The bucket in the middle parts ascending buckets into those below and those above it. -/
theorem split_at_middle {bs above : List Bucket} {c : Bucket} {k : Nat}
    (ascending : bs.Pairwise fun a b => a.partition < b.partition)
    (upper : bs.drop k = c :: above) {b : Bucket} (mem : b ∈ bs) :
    (b ∈ bs.take k ∧ b.partition < c.partition) ∨ b = c ∨
      (b ∈ above ∧ c.partition < b.partition) := by
  rw [← List.take_append_drop k bs, upper] at ascending mem
  obtain ⟨_, order, apart⟩ := List.pairwise_append.mp ascending
  rcases List.mem_append.mp mem with lower | mem
  · exact Or.inl ⟨lower, apart b lower c List.mem_cons_self⟩
  · rcases List.mem_cons.mp mem with rfl | higher
    · exact Or.inr (Or.inl rfl)
    · exact Or.inr (Or.inr ⟨higher, (List.pairwise_cons.mp order).1 b higher⟩)

/-- Among ascending buckets the search finds each one by its partition. -/
theorem searchBucket?_of_mem {bs : List Bucket}
    (ascending : bs.Pairwise fun a b => a.partition < b.partition) {b : Bucket} (mem : b ∈ bs) :
    searchBucket? b.partition bs = some b := by
  generalize key : b.partition = i
  fun_induction searchBucket? i bs with
  | case1 bs upper =>
    -- the upper half is empty only if there is no bucket
    have none_ : bs = [] := by
      have count := congrArg List.length upper
      simp only [List.length_drop, List.length_nil] at count
      apply List.length_eq_zero_iff.mp
      omega
    rw [none_] at mem
    cases mem
  | case2 bs c above upper same =>
    rcases split_at_middle ascending upper mem with ⟨_, lower⟩ | rfl | ⟨_, higher⟩
    · omega
    · rfl
    · omega
  | case3 bs c above upper other below ih =>
    apply ih (ascending.sublist (List.take_sublist _ _))
    rcases split_at_middle ascending upper mem with ⟨inside, _⟩ | rfl | ⟨_, higher⟩
    · exact inside
    · exact absurd key other
    · omega
  | case4 bs c above upper other notBelow ih =>
    have part : above.Sublist bs := by
      apply List.Sublist.trans _ (List.drop_sublist (bs.length / 2) bs)
      rw [upper]
      exact List.sublist_cons_self c above
    apply ih (ascending.sublist part)
    rcases split_at_middle ascending upper mem with ⟨_, lower⟩ | rfl | ⟨inside, _⟩
    · omega
    · exact absurd key other
    · exact inside

namespace Formula

/-- A lookup gives the clauses of a partition that is counted, in order, and nothing else. -/
def LooksUp (f : Formula) : Prop :=
  ∀ i, f.bucket? i =
    if i < f.numPartitions then some (f.soft.filter (·.partition = i)) else none

theorem looksUp_of_grouped {f : Formula} (grouped : Grouped f.soft) : f.LooksUp := by
  intro i
  have ascending := ascending_bucketsOf grouped
  have flat := flatten_buckets f.soft
  have clauses : ((searchBucket? i f.buckets).map Bucket.clauses).getD [] =
      f.soft.filter (·.partition = i) := by
    cases found : searchBucket? i f.buckets with
    | some b =>
      obtain ⟨mem, rfl⟩ := mem_of_searchBucket? found
      have kept := filter_flatten_buckets ascending (proper_bucketsOf f.soft) mem
      rw [flat] at kept
      exact kept.symm
    | none =>
      symm
      apply List.filter_eq_nil_iff.mpr
      intro s mem
      -- a clause of the partition would stand in a bucket that the search finds
      rw [← flat] at mem
      obtain ⟨clauses, listed, inside⟩ := List.mem_flatten.mp mem
      obtain ⟨b, bucket, rfl⟩ := List.mem_map.mp listed
      have label := (proper_bucketsOf f.soft b bucket).labels s inside
      have finds := searchBucket?_of_mem ascending bucket
      simp only [decide_eq_true_eq]
      rintro rfl
      rw [label] at found
      cases found.symm.trans finds
  rw [bucket?, clauses]

/-- A soft clause is found under its index exactly if that is counted. -/
theorem LooksUp.mem_iff {f : Formula} (looksUp : f.LooksUp) {s : SoftClause} (mem : s ∈ f.soft) :
    (∃ bucket, f.bucket? s.partition = some bucket ∧ s ∈ bucket) ↔
      s.partition < f.numPartitions := by
  rw [looksUp s.partition]
  constructor
  · rintro ⟨bucket, found, _⟩
    by_contra beyond
    rw [if_neg beyond] at found
    cases found
  · intro counted
    refine ⟨_, if_pos counted, ?_⟩
    exact List.mem_filter.mpr ⟨mem, by simp⟩

end Formula

namespace Problem

/-- The declared number of partitions and the indices of clauses are such that a program can
store them. -/
structure Indexed (p : Problem) : Prop where
  partitions : p.partitions ≤ lastPartition
  entries : ∀ e ∈ p.entries, e.partition ≤ lastPartition

/-- All indices but the very last one are counted. -/
theorem Indexed.counted_iff {p : Problem} (indexed : p.Indexed) {e : Entry} (mem : e ∈ p.entries) :
    e.partition < p.numPartitions ↔ e.partition ≠ lastPartition := by
  have small := indexed.entries e mem
  have most : p.numPartitions ≤ lastPartition := by
    apply numPartitions_le_iff.mpr
    exact ⟨indexed.partitions, fun _ _ => Nat.min_le_right _ _⟩
  have least := (numPartitions_le_iff.mp (Nat.le_refl p.numPartitions)).2 e mem
  omega

/-- A clause of the formula has the partition of a declared one. -/
theorem exists_entry_of_build {p : Problem} {f : Formula} (built : p.build = .ok f) :
    (∀ s ∈ f.soft, ∃ e ∈ p.entries, e.partition = s.partition) ∧
      ∀ h ∈ f.hard, ∃ e ∈ p.entries, e.partition = h.partition := by
  obtain ⟨_, n, done, rfl⟩ := build_eq_ok_iff.mp built
  have derived : n.All (fun _ => True) fun q => ∃ e ∈ p.entries, e.partition = q := by
    apply (normalizes_of_ok done).all
    · intro s mem
      exact ⟨⟨_, (mem_negatives mem).1, rfl⟩, fun _ _ => trivial⟩
    · intro v _ _
      exact trivial
  constructor
  · intro s mem
    rcases List.mem_append.mp (List.mem_mergeSort.mp mem) with declared | later
    · exact ⟨_, (mem_softs declared).1, rfl⟩
    · exact (derived.soft s later).1
  · intro h mem
    rcases List.mem_append.mp mem with declared | later
    · obtain ⟨e, found, rfl⟩ := mem_hards declared
      exact ⟨e, found, rfl⟩
    · exact (derived.hard h later).1

end Problem

namespace Formula

open Text Grammar

/-- In a formula that is built or read, a lookup gives exactly the soft clauses of an index
that is counted, in order, and nothing for any other. If it is read, every index in use is
counted, so each soft clause is found under its own. If it is built, the index of a clause is
counted, and the clause found, exactly if it is not the very last one. -/
theorem bucket?_finds_counted (f : Formula) :
    (∀ p : Problem, p.Indexed → p.build = .ok f → f.LooksUp ∧
      (∀ h ∈ f.hard, h.partition < f.numPartitions ↔ h.partition ≠ lastPartition) ∧
      (∀ s ∈ f.soft, s.partition < f.numPartitions ↔ s.partition ≠ lastPartition) ∧
      ∀ s ∈ f.soft, (∃ bucket, f.bucket? s.partition = some bucket ∧ s ∈ bucket) ↔
        s.partition ≠ lastPartition) ∧
    ∀ (o : ReadOptions) (ls : List Line), ofLines o ls = .ok f → f.LooksUp ∧
      (∀ h ∈ f.hard, h.partition < f.numPartitions) ∧
      (∀ s ∈ f.soft, s.partition < f.numPartitions) ∧
      ∀ s ∈ f.soft, ∃ bucket, f.bucket? s.partition = some bucket ∧ s ∈ bucket := by
  have building {p : Problem} (indexed : p.Indexed) (built : p.build = .ok f) :
      f.LooksUp ∧ (∀ h ∈ f.hard, h.partition < f.numPartitions ↔ h.partition ≠ lastPartition) ∧
        ∀ s ∈ f.soft, s.partition < f.numPartitions ↔ s.partition ≠ lastPartition := by
    obtain ⟨softs, hards⟩ := Problem.exists_entry_of_build built
    obtain ⟨_, n, _, rfl⟩ := Problem.build_eq_ok_iff.mp built
    refine ⟨looksUp_of_grouped (grouped_mergeSort _), ?_, ?_⟩
    · intro h mem
      obtain ⟨e, declared, same⟩ := hards h mem
      exact same ▸ indexed.counted_iff declared
    · intro s mem
      obtain ⟨e, declared, same⟩ := softs s mem
      exact same ▸ indexed.counted_iff declared
  constructor
  · intro p indexed built
    obtain ⟨looksUp, hards, softs⟩ := building indexed built
    exact ⟨looksUp, hards, softs, fun s mem => (looksUp.mem_iff mem).trans (softs s mem)⟩
  · intro o ls read
    obtain ⟨texts, p, _, declares, built⟩ := ofLines_eq_ok_iff.mp read
    have inside : ∀ e ∈ p.entries, e.partition < lastPartition :=
      fun e mem => (declares.clauses.inRange e mem).1
    have indexed : p.Indexed :=
      ⟨declares.preamble.partitions_pos.2, fun e mem => Nat.le_of_lt (inside e mem)⟩
    obtain ⟨softEntry, hardEntry⟩ := Problem.exists_entry_of_build built
    obtain ⟨looksUp, hards, softs⟩ := building indexed built
    have soft : ∀ s ∈ f.soft, s.partition < f.numPartitions := by
      intro s mem
      obtain ⟨e, declared, same⟩ := softEntry s mem
      exact (softs s mem).mpr (same ▸ Nat.ne_of_lt (inside e declared))
    refine ⟨looksUp, ?_, soft, fun s mem => (looksUp.mem_iff mem).mpr (soft s mem)⟩
    intro h mem
    obtain ⟨e, declared, same⟩ := hardEntry h mem
    exact (hards h mem).mpr (same ▸ Nat.ne_of_lt (inside e declared))

/-- Three buckets far apart, one of them with a derived unit behind its own clause, and a hard
clause in a partition without soft ones. -/
theorem bucket?_finds_counted_far_apart :
    let text := "p pwcnf 2 5 9 1\n100000000000 1 1 0\n2 2 -1 0\n2 -3 2 0\n7 9 1 2 0\n5 4 2 0\n"
    let p : Problem := {
      top := .finite 9
      partitions := 2
      entries := [.weighted [Lit.pos 1] 1 100000000000, .weighted [Lit.neg 1] 2 2,
        .weighted [Lit.pos 2] (-3) 2, .weighted [Lit.pos 1, Lit.pos 2] 9 7,
        .weighted [Lit.pos 2] 4 5] }
    let f : Formula := {
      numVars := 2
      inputVars := 2
      hard := [⟨[Lit.pos 1, Lit.pos 2], 7⟩]
      soft := [⟨[Lit.neg 1], 2, 2⟩, ⟨[Lit.neg 2], 3, 2⟩, ⟨[Lit.pos 2], 4, 5⟩,
        ⟨[Lit.pos 1], 1, 100000000000⟩]
      numPartitions := 100000000001
      topWeight := 9
      offset := -3
      comments := [] }
    p.Indexed ∧ p.build = .ok f ∧ ofLines {} (linesOfString text) = .ok f ∧
      f.bucket? 2 = some [⟨[Lit.neg 1], 2, 2⟩, ⟨[Lit.neg 2], 3, 2⟩] ∧ f.bucket? 7 = some [] ∧
      f.bucket? 100000000001 = none ∧ (∀ h ∈ f.hard, h.partition < f.numPartitions) ∧
      ∀ s ∈ f.soft, ∃ bucket, f.bucket? s.partition = some bucket ∧ s ∈ bucket := by
  intro text p f
  have indexed : p.Indexed := ⟨by decide, by decide⟩
  have built : p.build = .ok f := by
    unfold f
    cbv
  have read : ofLines {} (linesOfString text) = .ok f :=
    ofLines_of_lines (n := 6) (by decide +kernel) built
  obtain ⟨looksUp, _⟩ := (bucket?_finds_counted f).1 p indexed built
  obtain ⟨_, hards, _, found⟩ := (bucket?_finds_counted f).2 {} _ read
  exact ⟨indexed, built, read, looksUp 2, looksUp 7, looksUp 100000000001, hards, found⟩

/-- A clause at the very last index is in the formula, in a bucket of its own, but the count does
not reach it, and a lookup under its index finds nothing. -/
theorem bucket?_misses_last_partition :
    let p : Problem := { entries := [.weighted [Lit.pos 1] 1 lastPartition] }
    let f : Formula := {
      numVars := 1
      inputVars := 1
      hard := []
      soft := [⟨[Lit.pos 1], 1, lastPartition⟩]
      numPartitions := lastPartition
      topWeight := 2
      offset := 0
      comments := [] }
    p.Indexed ∧ p.build = .ok f ∧ f.buckets = [⟨lastPartition, f.soft⟩] ∧
      f.bucket? lastPartition = none ∧ ¬ ∀ s ∈ f.soft, s.partition < f.numPartitions := by
  intro p f
  have built : p.build = .ok f := by
    unfold f
    cbv
  exact ⟨⟨by decide, by decide⟩, built, by decide, by decide, by decide⟩

end Formula

end MaxSat

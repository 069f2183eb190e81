import MaxSat.Proofs.Formula.RoundTrip

/-!
# Files without partitions

A file without partitions has the same problem in one bucket if its hard clauses
are found hard again. They carry the top weight, and the reader looks at the sign
of a weight before it compares it with the top. So the conversion keeps the
problem exactly if the top weight is positive or there is no hard clause. Else
hard clauses are lost, at a top weight of zero, or turned into their negations.
-/

namespace MaxSat

open Text Grammar

namespace Formula

variable {f : Formula}

/-- The formula `g` has the problem of `f` in one bucket. -/
structure Flattens (f g : Formula) : Prop where
  hard : g.hard.map HardClause.clause = f.hard.map HardClause.clause
  soft : g.soft = f.soft.map fun s => { s with partition := 0 }
  topWeight : g.topWeight = f.topWeight
  comments : g.comments = f.comments
  feasible : ∀ ν, g.feasible ν = f.feasible ν
  cost : ∀ ν, g.cost ν = f.cost ν

theorem flattens_flat (f : Formula) : f.Flattens f.flat.compact where
  hard := by simp [flat, compact]
  soft := rfl
  topWeight := rfl
  comments := rfl
  feasible ν := by simp [Formula.feasible, flat, compact, Function.comp_def]
  cost ν := by
    rw [cost_eq_sum, cost_eq_sum]
    simp only [flat, compact, mergePartitions, List.map_map]
    rfl

theorem Writable.flat (writable : f.Writable) : f.flat.Writable where
  comments := writable.comments
  vars := writable.vars
  clauses := by simpa [numClauses, Formula.flat, mergePartitions] using writable.clauses
  somePartition := Nat.one_pos
  partitions := show 1 ≤ lastPartition by decide
  hard := by
    intro h mem
    obtain ⟨k, found, rfl⟩ := List.mem_map.mp mem
    exact ⟨Nat.one_pos, (writable.hard k found).2⟩
  soft := by
    intro s mem
    obtain ⟨t, found, rfl⟩ := List.mem_map.mp mem
    exact ⟨Nat.one_pos, (writable.soft t found).2⟩
  weights := by
    intro s mem
    obtain ⟨t, found, rfl⟩ := List.mem_map.mp mem
    exact writable.weights t found
  grouped := List.pairwise_map.mpr (List.pairwise_of_forall_mem_list fun _ _ _ _ => Nat.le_refl 0)

/-- With a top weight that is not positive there are no soft clauses, and every written clause
waits for normalization. -/
theorem negatives_declared (writable : f.Writable) (nonpositive : f.topWeight ≤ 0) :
    f.soft = [] ∧ f.declared.hards = [] ∧
      f.declared.negatives = f.hard.map fun h => ⟨h.clause, f.topWeight, h.partition⟩ := by
  have none : f.soft = [] := by
    refine List.eq_nil_iff_forall_not_mem.mpr fun s mem => ?_
    obtain ⟨positive, below⟩ := writable.weights s mem
    exact absurd (lt_trans positive below) (not_lt.mpr nonpositive)
  have sign : ¬ 0 < f.topWeight := not_lt.mpr nonpositive
  refine ⟨none, ?_, ?_⟩
  · rw [Problem.hards, filterMap_declared, none]
    simp [Entry.asHard?, sign]
  · rw [Problem.negatives, filterMap_declared, none]
    simp [Entry.asNegative?, sign]

/-- A top weight that is not positive loses or turns hard clauses. -/
theorem hard_ne_of_nonpositive (writable : f.Writable) (nonpositive : f.topWeight ≤ 0)
    (some : f.hard ≠ []) {g : Formula} (built : f.declared.build = .ok g) :
    g.hard.map HardClause.clause ≠ f.hard.map HardClause.clause := by
  obtain ⟨-, hards, negatives⟩ := negatives_declared writable nonpositive
  obtain ⟨-, n, done, rfl⟩ := Problem.build_eq_ok_iff.mp built
  have norm := normalizes_of_ok done
  have weight : ∀ s ∈ f.declared.negatives, s.weight = f.topWeight := by
    intro s mem
    rw [negatives] at mem
    obtain ⟨h, -, rfl⟩ := List.mem_map.mp mem
    rfl
  have clauses : f.declared.negatives.map SoftClause.clause = f.hard.map HardClause.clause := by
    simp [negatives]
  have nonempty : f.declared.negatives ≠ [] := by simpa [negatives] using some
  have hard : (f.declared.assemble n).hard = n.hard := by simp [Problem.assemble, hards]
  rw [hard, ← clauses]
  rcases lt_or_eq_of_le nonpositive with negative | zero
  · refine norm.hard_ne (fun s mem => ?_) (fun s mem l hl => Problem.negatives_ids mem hl) nonempty
    rw [weight s mem]
    refine ⟨ne_of_lt negative, ?_⟩
    have above : f.topWeight < -f.topWeight := by linarith
    simpa [TopWeight.admits] using le_of_lt above
  · rw [norm.hard_of_zero fun s mem => (weight s mem).trans zero]
    exact fun same => nonempty (List.map_eq_nil_iff.mp same.symm)

/-- Reading a file that was converted to one without partitions gives the same problem exactly if
the top weight is positive or nothing is hard. -/
theorem toWcnf_keeps_problem_iff {s : String} {f : Formula} (read : ofString {} s = .ok f)
    (short : s.length ≤ lastPartition) :
    (∃ g, ofString { dialect := .wcnf } f.toWcnf = .ok g ∧ f.Flattens g) ↔
      0 < f.topWeight ∨ f.hard = [] := by
  have writable := writable_of_ofString read short
  have flat := writable.flat
  simp only [ofString_toWcnf writable]
  constructor
  · rintro ⟨g, built, flattens⟩
    by_contra neither
    obtain ⟨nonpositive, some⟩ := not_or.mp neither
    have flatSome : f.flat.hard ≠ [] := by simpa [Formula.flat] using some
    refine hard_ne_of_nonpositive flat (not_lt.mp nonpositive) flatSome built ?_
    rw [flattens.hard]
    simp [Formula.flat]
  · intro either
    refine ⟨f.flat.compact, build_declared flat fun some => ?_, flattens_flat f⟩
    refine either.resolve_right fun none => some ?_
    simp [Formula.flat, none]

/-- Two partitions, a fraction and a clause with a selector. -/
theorem toWcnf_keeps_problem_selector :
    let text := "c x\np pwcnf 2 3 4 1\n1 4 1 -2 0\n1 1/2 2 0\n0 -3 1 2 0\n"
    let f : Formula := {
      numVars := 3
      inputVars := 2
      hard := [⟨[Lit.pos 1, Lit.neg 2], 1⟩, ⟨[Lit.pos 3, Lit.neg 1], 0⟩,
        ⟨[Lit.pos 3, Lit.neg 2], 0⟩, ⟨[Lit.neg 3, Lit.pos 1, Lit.pos 2], 0⟩]
      soft := [⟨[Lit.neg 3], 3, 0⟩, ⟨[Lit.pos 2], 1/2, 1⟩]
      numPartitions := 2
      topWeight := 4
      offset := -3
      comments := ["c x"] }
    ofString {} text = .ok f ∧ text.length ≤ lastPartition ∧
      ∃ g, ofString { dialect := .wcnf } f.toWcnf = .ok g ∧ f.Flattens g := by
  intro text f
  have built : Problem.build {
      top := .finite 4
      partitions := 2
      entries := [.weighted [Lit.pos 1, Lit.neg 2] 4 1, .weighted [Lit.pos 2] (1/2) 1,
        .weighted [Lit.pos 1, Lit.pos 2] (-3) 0]
      comments := f.comments } = .ok f := by
    unfold f
    cbv
  have read : ofString {} text = .ok f := ofLines_of_lines (n := 5) (by decide +kernel) built
  have short : text.length ≤ lastPartition := by decide +kernel
  have positive : 0 < f.topWeight := by decide +kernel
  exact ⟨read, short, (toWcnf_keeps_problem_iff read short).mpr (Or.inl positive)⟩

/-- Two hard clauses that exclude each other, at a top weight of zero: the problem has no
solution, and in the converted file nothing is left of it. -/
theorem toWcnf_loses_hard_clauses :
    let text := "p pwcnf 1 2 0 0\n0 5 1 0\n0 5 -1 0\n"
    ∃ f g, ofString {} text = .ok f ∧
      f.toWcnf = "p wcnf 1 2 0\n0 1 0\n0 -1 0\n" ∧
      ofString { dialect := .wcnf } f.toWcnf = .ok g ∧
      f.hard = [⟨[Lit.pos 1], 0⟩, ⟨[Lit.neg 1], 0⟩] ∧ g.hard = [] ∧
      (∀ ν, f.feasible ν = false) ∧ ∀ ν, g.feasible ν = true := by
  intro text
  let f : Formula := {
    numVars := 1
    inputVars := 1
    hard := [⟨[Lit.pos 1], 0⟩, ⟨[Lit.neg 1], 0⟩]
    soft := []
    numPartitions := 1
    topWeight := 0
    offset := 0
    comments := [] }
  have built : Problem.build {
      top := .finite 0
      partitions := 1
      entries := [.weighted [Lit.pos 1] 5 0, .weighted [Lit.neg 1] 5 0] } = .ok f := by
    unfold f
    cbv
  have dropped : Problem.build {
      top := .finite 0
      partitions := 1
      entries := [.weighted [Lit.pos 1] 0 0, .weighted [Lit.neg 1] 0 0] } =
        .ok { f with hard := [] } := by
    unfold f
    cbv
  have read : ofString {} text = .ok f := ofLines_of_lines (n := 3) (by decide +kernel) built
  have lost : ofString { dialect := .wcnf } f.toWcnf = .ok { f with hard := [] } :=
    ofLines_of_lines (n := 3) (by decide +kernel) dropped
  have infeasible : ∀ ν, f.feasible ν = false := by
    intro ν
    cases truth : ν 1 with
    | true => simp [f, feasible, truth]
    | false => simp [f, feasible, truth]
  exact ⟨f, { f with hard := [] }, read, by decide +kernel, lost, rfl, rfl, infeasible,
    fun ν => rfl⟩

end Formula

end MaxSat

import MaxSat.Proofs.Formula.Declared

/-!
# Which variables a formula takes

Normalization takes one selector for each clause of two or more literals whose
weight is not zero, one after the other above the variables in use, and so it
runs out of ids exactly if there are too few above these. Building fails for no
other reason.
-/

namespace MaxSat

/-- A clause that needs a selector. -/
def SoftClause.isWide (s : SoftClause) : Bool :=
  decide (s.weight ≠ 0) && decide (2 ≤ s.clause.length)

theorem SoftClause.isWide_of_void {s : SoftClause} (void : s.weight = 0 ∨ s.clause = []) :
    s.isWide = false := by
  rcases void with zero | empty
  · simp [SoftClause.isWide, zero]
  · simp [SoftClause.isWide, empty]

theorem SoftClause.isWide_of_length {s : SoftClause} (nonzero : s.weight ≠ 0)
    (long : 2 ≤ s.clause.length) : s.isWide = true := by
  simp [SoftClause.isWide, nonzero, long]

namespace Entry

/-- A declared clause that needs a selector. -/
def needsSelector : Entry → Bool
  | hard _ _ => false
  | weighted c w _ => decide (w < 0) && decide (2 ≤ c.length)

end Entry

/-- The number of selectors that a problem needs. -/
def Problem.selectors (p : Problem) : Nat := p.entries.countP Entry.needsSelector

/-- A clause without a selector takes no id. -/
theorem normalize_cons_narrow (top : TopWeight) (n : Nat) {s : SoftClause}
    (narrow : s.isWide = false) (rest : List SoftClause) :
    ∃ change : Normalized → Normalized,
      normalize top n (s :: rest) = (normalize top n rest).map change := by
  have unchanged : ∀ x : Except Nat Normalized, x = x.map id := by
    rintro (n | r)
    · rfl
    · rfl
  rw [normalize]
  by_cases zero : -s.weight = 0
  · simp only [if_pos zero]
    exact ⟨id, unchanged _⟩
  · simp only [if_neg zero]
    split
    · exact ⟨id, unchanged _⟩
    · exact ⟨_, rfl⟩
    · rename_i notEmpty notSingle
      have nonzero : s.weight ≠ 0 := fun eq => zero (neg_eq_zero.mpr eq)
      rcases clause : s.clause with _ | ⟨l, _ | ⟨m, c⟩⟩
      · exact absurd clause notEmpty
      · exact absurd clause (notSingle l)
      · simp [SoftClause.isWide, nonzero, clause] at narrow

theorem normalize_cons_wide (top : TopWeight) (n : Nat) {s : SoftClause} (wide : s.isWide = true)
    (rest : List SoftClause) :
    normalize top n (s :: rest) = if maxVar < n + 1 then .error n
      else (normalize top (n + 1) rest).map (Normalized.addSelector top (n + 1) s) := by
  simp only [SoftClause.isWide, Bool.and_eq_true, decide_eq_true_eq] at wide
  obtain ⟨nonzero, long⟩ := wide
  have nonzero : ¬ -s.weight = 0 := fun eq => nonzero (neg_eq_zero.mp eq)
  rw [normalize]
  simp only [if_neg nonzero]
  split
  · rename_i empty
    simp [empty] at long
  · rename_i l single
    simp [single] at long
  · rfl

theorem except_map_eq_error_iff {ε α β : Type} {f : α → β} {x : Except ε α} {e : ε} :
    x.map f = .error e ↔ x = .error e := by
  cases x with
  | error d => simp [Except.map]
  | ok a => simp [Except.map]

/-- Normalization fails where the selectors do not fit, with all ids up to the last one in use. -/
theorem normalize_eq_error_iff {top : TopWeight} {n m : Nat} {negs : List SoftClause} :
    normalize top n negs = .error m ↔
      0 < negs.countP SoftClause.isWide ∧ maxVar < n + negs.countP SoftClause.isWide ∧
        m = max n maxVar := by
  induction negs generalizing n with
  | nil => simp [normalize]
  | cons s rest ih =>
    cases wide : s.isWide with
    | false =>
      obtain ⟨change, eq⟩ := normalize_cons_narrow top n wide rest
      rw [eq, except_map_eq_error_iff, ih, List.countP_cons_of_neg (by simp [wide])]
    | true =>
      rw [normalize_cons_wide top n wide, List.countP_cons_of_pos wide]
      by_cases full : maxVar < n + 1
      · have last : max n maxVar = n := by omega
        rw [if_pos full, last]
        constructor
        · rintro ⟨⟩
          exact ⟨by omega, by omega, rfl⟩
        · rintro ⟨-, -, rfl⟩
          rfl
      · rw [if_neg full, except_map_eq_error_iff, ih]
        constructor
        · rintro ⟨some, beyond, last⟩
          exact ⟨by omega, by omega, by omega⟩
        · rintro ⟨-, beyond, last⟩
          exact ⟨by omega, by omega, by omega⟩

theorem Normalizes.numVars_eq {top : TopWeight} {n : Nat} {negs : List SoftClause} {r : Normalized}
    (norm : Normalizes top n negs r) : r.numVars = n + negs.countP SoftClause.isWide := by
  induction norm with
  | nil => simp
  | @void n s rest r void _ ih =>
    have narrow := SoftClause.isWide_of_void void
    rw [ih, List.countP_cons_of_neg (by simp [narrow])]
  | @unit n s rest r l _ clause _ ih =>
    have narrow : s.isWide = false := by simp [SoftClause.isWide, clause]
    rw [Normalized.numVars_addUnit, ih, List.countP_cons_of_neg (by simp [narrow])]
  | @wide n s rest r nonzero long _ _ ih =>
    have wide := SoftClause.isWide_of_length nonzero long
    rw [Normalized.numVars_addSelector, ih, List.countP_cons_of_pos wide]
    omega

namespace Problem

/-- The formula made of a problem and of what normalization derives from it. -/
def assemble (p : Problem) (n : Normalized) : Formula where
  numVars := n.numVars
  inputVars := p.maxVar
  hard := p.hards ++ n.hard
  soft := (p.softs ++ n.soft).mergeSort fun a b => a.partition ≤ b.partition
  numPartitions := p.numPartitions
  topWeight := resolveTop p.top (p.softs ++ n.soft)
  offset := Weight.total (p.negatives.map SoftClause.weight)
  comments := p.comments

theorem build_eq_ok_iff {p : Problem} {f : Formula} :
    p.build = .ok f ↔ p.maxVar ≤ MaxSat.maxVar ∧
      ∃ n, normalize p.top p.maxVar p.negatives = .ok n ∧ f = p.assemble n := by
  rw [build]
  by_cases large : MaxSat.maxVar < p.maxVar
  · have beyond : ¬ p.maxVar ≤ MaxSat.maxVar := Nat.not_le_of_lt large
    simp [large, beyond]
  · rw [if_neg large]
    have small : p.maxVar ≤ MaxSat.maxVar := Nat.le_of_not_lt large
    cases normalize p.top p.maxVar p.negatives with
    | error m => simp
    | ok n => simp [small, assemble, hards, softs, eq_comm]

/-- The clauses that normalization gives a selector are those declared with a negative weight
and two or more literals. -/
theorem countP_negatives (p : Problem) : p.negatives.countP SoftClause.isWide = p.selectors := by
  rw [negatives, selectors, List.countP_filterMap]
  refine List.countP_congr fun e _ => ?_
  cases e with
  | hard c q => simp [Entry.asNegative?, Entry.needsSelector]
  | weighted c w q =>
    by_cases positive : 0 < w
    · have notNegative : ¬ w < 0 := not_lt_of_gt positive
      simp [Entry.asNegative?, Entry.needsSelector, positive, notNegative]
    · have sign : w ≠ 0 ↔ w < 0 := ⟨lt_of_le_of_ne (not_lt.mp positive), ne_of_lt⟩
      simp [Entry.asNegative?, Entry.needsSelector, SoftClause.isWide, positive, sign]

/-- Building fails exactly if the declared variables and the selectors need too many ids. -/
theorem build_eq_error_iff {p : Problem} {fault : Fault} :
    p.build = .error fault ↔
      fault = .tooManyVariables ∧ MaxSat.maxVar < p.maxVar + p.selectors := by
  rw [build, ← countP_negatives]
  by_cases large : MaxSat.maxVar < p.maxVar
  · have beyond : MaxSat.maxVar < p.maxVar + p.negatives.countP SoftClause.isWide := by omega
    simp [large, beyond, eq_comm]
  · rw [if_neg large]
    cases done : normalize p.top p.maxVar p.negatives with
    | error m =>
      obtain ⟨-, beyond, -⟩ := normalize_eq_error_iff.mp done
      simp [beyond, eq_comm]
    | ok n =>
      have numVars := (normalizes_of_ok done).numVars_eq
      have room := (normalizes_of_ok done).numVars_le (Nat.le_of_not_lt large)
      have fits : ¬ MaxSat.maxVar < p.maxVar + p.negatives.countP SoftClause.isWide := by omega
      simp [fits]

theorem build_isOk_iff {p : Problem} :
    (∃ f, p.build = .ok f) ↔ p.maxVar + p.selectors ≤ MaxSat.maxVar := by
  constructor
  · rintro ⟨f, built⟩
    by_contra beyond
    have failed := build_eq_error_iff.mpr ⟨rfl, Nat.lt_of_not_le beyond⟩
    rw [built] at failed
    cases failed
  · intro room
    cases built : p.build with
    | ok f => exact ⟨f, rfl⟩
    | error fault =>
      obtain ⟨-, beyond⟩ := build_eq_error_iff.mp built
      omega

end Problem

end MaxSat

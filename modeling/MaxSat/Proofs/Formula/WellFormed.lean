import MaxSat.Formula.Reader
import MaxSat.Proofs.Formula.Declared

/-!
# What every formula satisfies

Formulas come from building a problem, directly or after reading it. In all of
them literals stay within the variables in use, whose number an id can have, and
every soft weight is positive. Variable 0 is not excluded here: only a reader
refuses it.
-/

namespace MaxSat

/-- Conditions that the type of formulas does not enforce. -/
structure Formula.WellFormed (f : Formula) : Prop where
  hardIds : ∀ h ∈ f.hard, ∀ l ∈ h.clause, l.var ≤ f.numVars
  softIds : ∀ s ∈ f.soft, ∀ l ∈ s.clause, l.var ≤ f.numVars
  positive : ∀ s ∈ f.soft, 0 < s.weight
  inputs : f.inputVars ≤ f.numVars
  room : f.numVars ≤ maxVar

theorem Problem.BuildsFrom.wellFormed {p : Problem} {f : Formula} {n : Normalized}
    (from_ : p.BuildsFrom f n) : f.WellFormed := by
  have norm := from_.normalized
  obtain ⟨hardIds, softIds⟩ := norm.ids fun s mem l hl => Problem.negatives_ids mem hl
  have more : p.maxVar ≤ f.numVars := by
    rw [from_.numVars]
    exact norm.le_numVars
  refine ⟨?_, ?_, ?_, ?_, ?_⟩
  · intro h mem l hl
    rw [from_.hard] at mem
    rcases List.mem_append.mp mem with mem | mem
    · exact Nat.le_trans (Problem.hards_ids mem hl) more
    · exact from_.numVars ▸ hardIds h mem l hl
  · intro s mem l hl
    rw [from_.soft, List.mem_mergeSort] at mem
    rcases List.mem_append.mp mem with mem | mem
    · exact Nat.le_trans (Problem.le_maxVar (Problem.mem_softs mem).1 hl) more
    · exact from_.numVars ▸ softIds s mem l hl
  · intro s mem
    rw [from_.soft, List.mem_mergeSort] at mem
    rcases List.mem_append.mp mem with mem | mem
    · exact (Problem.mem_softs mem).2
    · exact norm.weight_pos (fun s mem => (Problem.mem_negatives mem).2) s mem
  · exact from_.inputVars ▸ more
  · exact from_.numVars ▸ norm.numVars_le from_.small

namespace Formula

/-- A formula that is read is built from what was read. -/
theorem build_of_ofLines {o : ReadOptions} {ls : List Text.Line} {f : Formula}
    (read : ofLines o ls = .ok f) : ∃ p : Problem, p.build = .ok f := by
  rw [ofLines] at read
  cases lines : Reader.lines o 0 {} ls with
  | error e =>
    rw [lines] at read
    cases read
  | ok last =>
    obtain ⟨n, r⟩ := last
    simp only [lines, bind, Except.bind] at read
    split at read
    · cases read
    · rename_i preamble _
      split at read
      · rename_i built
        cases read
        exact ⟨_, built⟩
      · cases read

/-- Formulas as building a problem or reading a file gives them. -/
def Made (f : Formula) : Prop :=
  (∃ p : Problem, p.build = .ok f) ∨ ∃ o ls, ofLines o ls = .ok f

theorem Made.wellFormed {f : Formula} (made : f.Made) : f.WellFormed := by
  have build : ∃ p : Problem, p.build = .ok f := by
    rcases made with build | ⟨o, ls, read⟩
    · exact build
    · exact build_of_ofLines read
  obtain ⟨p, built⟩ := build
  obtain ⟨n, from_⟩ := Problem.buildsFrom_of_build built
  exact from_.wellFormed

/-- The buckets in order give the soft clauses back. -/
theorem flatten_buckets (soft : List SoftClause) :
    ((bucketsOf soft).map Bucket.clauses).flatten = soft := by
  induction soft with
  | nil => rfl
  | cons s rest ih =>
    rw [bucketsOf]
    split
    · rename_i none_
      rw [none_] at ih
      simp [← ih]
    · rename_i b bs some_
      rw [some_] at ih
      split
      · simp [← ih]
      · simp [← ih]

end Formula

end MaxSat

import MaxSat.Proofs.Formula.Derived

/-!
# Selectors

The clauses that need a selector get the ids above the declared variables, one
after the other in the order of declaration. A selector is mentioned only where
its own clause is defined and weighed: declared clauses stay below it, and the
definitions of other clauses have other selectors. Where the ids do not suffice,
normalization stops with the last one in use, and building fails.
-/

namespace MaxSat

/-- Some literal of the clause is about the variable. -/
def Clause.Mentions (c : Clause) (v : Nat) : Prop := ∃ l ∈ c, l.var = v

theorem Clause.not_mentions_of_ids {c : Clause} {n v : Nat} (ids : ∀ l ∈ c, l.var ≤ n)
    (above : n < v) : ¬ c.Mentions v := by
  rintro ⟨l, mem, rfl⟩
  have := ids l mem
  omega

/-- Among the given clauses `sel` is the selector of `s`: it is defined by the clause, its unit
has the weight or is hard if the top does not admit it, and nothing else mentions it. -/
structure Selects (top : TopWeight) (sel : Nat) (s : SoftClause) (hard : List HardClause)
    (soft : List SoftClause) : Prop where
  defined : ∀ h ∈ Normalized.definition sel s.clause s.partition, h ∈ hard
  softUnit : top.admits (-s.weight) = true → ⟨[Lit.neg sel], -s.weight, s.partition⟩ ∈ soft
  hardUnit : top.admits (-s.weight) = false → ⟨[Lit.neg sel], s.partition⟩ ∈ hard
  hardOnly : ∀ h ∈ hard, h.clause.Mentions sel →
    h ∈ Normalized.definition sel s.clause s.partition ∨ h = ⟨[Lit.neg sel], s.partition⟩
  softOnly : ∀ t ∈ soft, t.clause.Mentions sel → t = ⟨[Lit.neg sel], -s.weight, s.partition⟩

/-- Clauses that do not mention a selector may be added. -/
theorem Selects.mono {top : TopWeight} {sel : Nat} {s : SoftClause} {hard hard' : List HardClause}
    {soft soft' : List SoftClause} (selects : Selects top sel s hard soft)
    (hardMore : ∀ h ∈ hard, h ∈ hard') (softMore : ∀ t ∈ soft, t ∈ soft')
    (hardNew : ∀ h ∈ hard', h ∈ hard ∨ ¬ h.clause.Mentions sel)
    (softNew : ∀ t ∈ soft', t ∈ soft ∨ ¬ t.clause.Mentions sel) :
    Selects top sel s hard' soft' := by
  constructor
  · intro h mem
    exact hardMore h (selects.defined h mem)
  · intro admitted
    exact softMore _ (selects.softUnit admitted)
  · intro refused
    exact hardMore _ (selects.hardUnit refused)
  · intro h mem mentions
    rcases hardNew h mem with old | silent
    · exact selects.hardOnly h old mentions
    · exact absurd mentions silent
  · intro t mem mentions
    rcases softNew t mem with old | silent
    · exact selects.softOnly t old mentions
    · exact absurd mentions silent

theorem Normalized.not_mentions_definition {sel v n : Nat} {c : Clause} (other : sel ≠ v)
    (ids : ∀ l ∈ c, l.var ≤ n) (above : n < v) (p : Nat) :
    ∀ h ∈ definition sel c p, ¬ h.clause.Mentions v := by
  have silent := Clause.not_mentions_of_ids ids above
  simp only [definition, List.mem_append, List.mem_map, List.mem_singleton]
  rintro h (⟨l, mem, rfl⟩ | rfl) ⟨k, inClause, var⟩
  · simp only [List.mem_cons, List.not_mem_nil, or_false] at inClause
    rcases inClause with rfl | rfl
    · exact other var
    · exact silent ⟨l, mem, var⟩
  · rcases List.mem_cons.mp inClause with rfl | inClause
    · exact other var
    · exact silent ⟨k, inClause, var⟩

/-- A unit of another variable changes nothing for a selector. -/
theorem Selects.addUnit {top : TopWeight} {sel : Nat} {s : SoftClause} {r : Normalized}
    (selects : Selects top sel s r.hard r.soft) {l : Lit} (other : l.var ≠ sel) (w : Weight)
    (p : Nat) : Selects top sel s (r.addUnit top l w p).hard (r.addUnit top l w p).soft := by
  have silent : ¬ Clause.Mentions [l.negate] sel := by
    simpa [Clause.Mentions, Lit.negate] using other
  apply selects.mono
  · intro h mem
    exact (Normalized.mem_hard_addUnit _ _ _ _ _).mpr (Or.inr mem)
  · intro t mem
    exact (Normalized.mem_soft_addUnit _ _ _ _ _).mpr (Or.inr mem)
  · intro h mem
    rcases (Normalized.mem_hard_addUnit _ _ _ _ _).mp mem with ⟨_, rfl⟩ | old
    · exact Or.inr silent
    · exact Or.inl old
  · intro t mem
    rcases (Normalized.mem_soft_addUnit _ _ _ _ _).mp mem with ⟨_, rfl⟩ | old
    · exact Or.inr silent
    · exact Or.inl old

theorem Normalized.selectors_addUnit (top : TopWeight) (l : Lit) (w : Weight) (p : Nat)
    (n : Normalized) : (addUnit top l w p n).selectors = n.selectors := by
  cases admitted : top.admits w <;> simp [addUnit, admitted]

namespace Normalizes

variable {top : TopWeight} {n : Nat} {negs : List SoftClause} {r : Normalized}

theorem selectors_eq (norm : Normalizes top n negs r) :
    r.selectors = negs.countP SoftClause.isWide := by
  induction norm with
  | nil => rfl
  | void void _ ih =>
    have narrow := SoftClause.isWide_of_void void
    rw [ih, List.countP_cons_of_neg (by simp [narrow])]
  | @unit n s rest r l _ clause _ ih =>
    have narrow : s.isWide = false := by simp [SoftClause.isWide, clause]
    rw [Normalized.selectors_addUnit, ih, List.countP_cons_of_neg (by simp [narrow])]
  | @wide n s rest r nonzero long _ _ ih =>
    have wide := SoftClause.isWide_of_length nonzero long
    rw [List.countP_cons_of_pos wide, ← ih]
    exact congrArg (· + 1) (Normalized.selectors_addUnit top _ _ _ r)

/-- What is derived from later clauses does not mention an id that is taken before. -/
theorem not_mentions (norm : Normalizes top n negs r) {m v : Nat}
    (ids : ∀ s ∈ negs, ∀ l ∈ s.clause, l.var ≤ m) (above : m < v) (taken : v ≤ n) :
    (∀ h ∈ r.hard, ¬ h.clause.Mentions v) ∧ ∀ t ∈ r.soft, ¬ t.clause.Mentions v := by
  have all : r.All (· ≠ v) fun _ => True := by
    apply norm.all
    · intro s mem
      refine ⟨trivial, fun l hl => ?_⟩
      have := ids s mem l hl
      omega
    · intro u fresh _
      omega
  constructor
  · rintro h mem ⟨l, hl, var⟩
    exact (all.hard h mem).2 l hl var
  · rintro t mem ⟨l, hl, var⟩
    exact (all.soft t mem).2 l hl var

/-- The first clause with a selector gets the next id. -/
theorem selects_first {s : SoftClause} (norm : Normalizes top (n + 1) negs r) {m : Nat}
    (ids : ∀ t ∈ negs, ∀ l ∈ t.clause, l.var ≤ m) (le : m ≤ n) :
    Selects top (n + 1) s (r.addSelector top (n + 1) s).hard
      (r.addSelector top (n + 1) s).soft := by
  obtain ⟨hardSilent, softSilent⟩ := norm.not_mentions ids (Nat.lt_succ_of_le le) (Nat.le_refl _)
  constructor
  · intro h mem
    exact List.mem_append_left _ mem
  · intro admitted
    exact (Normalized.mem_soft_addUnit _ _ _ _ _).mpr (Or.inl ⟨admitted, rfl⟩)
  · intro refused
    apply List.mem_append_right
    exact (Normalized.mem_hard_addUnit _ _ _ _ _).mpr (Or.inl ⟨refused, rfl⟩)
  · intro h mem mentions
    rcases List.mem_append.mp mem with part | mem
    · exact Or.inl part
    · rcases (Normalized.mem_hard_addUnit _ _ _ _ _).mp mem with ⟨_, unit⟩ | later
      · exact Or.inr unit
      · exact absurd mentions (hardSilent h later)
  · intro t mem mentions
    rcases (Normalized.mem_soft_addUnit _ _ _ _ _).mp mem with ⟨_, unit⟩ | later
    · exact unit
    · exact absurd mentions (softSilent t later)

/-- Declared variables go up to `m`. The clause with `i` others before it that need a selector
has the id `n + i + 1`. -/
theorem selects (norm : Normalizes top n negs r) {m : Nat}
    (ids : ∀ s ∈ negs, ∀ l ∈ s.clause, l.var ≤ m) (le : m ≤ n) {i : Nat} {s : SoftClause}
    (found : (negs.filter SoftClause.isWide)[i]? = some s) :
    Selects top (n + i + 1) s r.hard r.soft := by
  induction norm generalizing i with
  | nil => cases found
  | @void n t rest r void _ ih =>
    have narrow := SoftClause.isWide_of_void void
    rw [List.filter_cons_of_neg (by simp [narrow])] at found
    exact ih (fun u mem => ids u (by simp [mem])) le found
  | @unit n t rest r l _ clause _ ih =>
    have narrow : t.isWide = false := by simp [SoftClause.isWide, clause]
    rw [List.filter_cons_of_neg (by simp [narrow])] at found
    have declared : l.var ≤ m := ids t (by simp) l (by simp [clause])
    have later := ih (fun u mem => ids u (by simp [mem])) le found
    exact later.addUnit (by omega) _ _
  | @wide n t rest r nonzero long _ tail ih =>
    have later : ∀ u ∈ rest, ∀ l ∈ u.clause, l.var ≤ m := fun u mem => ids u (by simp [mem])
    rw [List.filter_cons_of_pos (SoftClause.isWide_of_length nonzero long)] at found
    cases i with
    | zero =>
      obtain rfl : t = s := Option.some.inj found
      exact tail.selects_first later le
    | succ i =>
      have place : n + 1 + i + 1 = n + (i + 1) + 1 := by omega
      have selects := place ▸ ih later (by omega) found
      have other : (Lit.pos (n + 1)).var ≠ n + (i + 1) + 1 := by
        show n + 1 ≠ _
        omega
      apply (selects.addUnit other (-t.weight) t.partition).mono
      · intro h mem
        exact List.mem_append_right _ mem
      · intro u mem
        exact mem
      · intro h mem
        rcases List.mem_append.mp mem with part | old
        · apply Or.inr
          exact Normalized.not_mentions_definition other (ids t (by simp)) (by omega) _ h part
        · exact Or.inl old
      · intro u mem
        exact Or.inl mem

end Normalizes

namespace Problem

/-- The declared clauses that need a selector, in order. -/
def wides (p : Problem) : List SoftClause := p.negatives.filter SoftClause.isWide

/-- Building fails, for want of ids, exactly if the declared variables alone or together with the
selectors go past the last one. Otherwise the selectors are the ids right above the declared
variables, in the order of the clauses that need one. Normalization by itself, of any clauses and
from any number of variables on, fails exactly if it needs an id past the last one, and by then
has all ids up to that in use. -/
theorem build_allocates_ids (p : Problem) :
    (∀ fault, p.build = .error fault ↔ fault = .tooManyVariables ∧
      (MaxSat.maxVar < p.maxVar ∨ MaxSat.maxVar < p.maxVar + p.selectors)) ∧
    (∀ f, p.build = .ok f → f.inputVars = p.maxVar ∧ f.numVars = p.maxVar + p.selectors ∧
      p.wides.length = p.selectors ∧
      (∀ i s, p.wides[i]? = some s → Selects p.top (p.maxVar + i + 1) s f.hard f.soft) ∧
      ∀ e ∈ p.entries, ∀ l ∈ e.clause, l.var ≤ p.maxVar) ∧
    ∀ (top : TopWeight) (n : Nat) (negs : List SoftClause),
      let wide := negs.countP SoftClause.isWide
      (∀ m, normalize top n negs = .error m ↔
        0 < wide ∧ MaxSat.maxVar < n + wide ∧ m = max n MaxSat.maxVar) ∧
      ∀ r, normalize top n negs = .ok r → r.numVars = n + wide ∧ r.selectors = wide := by
  refine ⟨fun fault => ?_, fun f built => ?_, fun top n negs => ⟨fun m => ?_, fun r done => ?_⟩⟩
  · rw [build_eq_error_iff]
    have beyond : MaxSat.maxVar < p.maxVar + p.selectors ↔
        MaxSat.maxVar < p.maxVar ∨ MaxSat.maxVar < p.maxVar + p.selectors := by omega
    rw [← beyond]
  · obtain ⟨_, r, done, rfl⟩ := build_eq_ok_iff.mp built
    have norm := normalizes_of_ok done
    have count : p.wides.length = p.selectors := by
      rw [wides, ← List.countP_eq_length_filter, countP_negatives]
    have numVars := norm.numVars_eq
    rw [countP_negatives] at numVars
    refine ⟨rfl, numVars, count, fun i s found => ?_, fun e mem l hl => le_maxVar mem hl⟩
    have selects := norm.selects (fun t mem l => negatives_ids mem) (Nat.le_refl _) found
    have above : p.maxVar < p.maxVar + i + 1 := by omega
    -- what was declared hard or soft is below the selectors
    apply selects.mono
    · intro h mem
      exact List.mem_append_right _ mem
    · intro t mem
      exact List.mem_mergeSort.mpr (List.mem_append_right _ mem)
    · intro h mem
      rcases List.mem_append.mp mem with declared | old
      · exact Or.inr (Clause.not_mentions_of_ids (fun l => hards_ids declared) above)
      · exact Or.inl old
    · intro t mem
      rcases List.mem_append.mp (List.mem_mergeSort.mp mem) with declared | old
      · have ids : ∀ l ∈ t.clause, l.var ≤ p.maxVar := fun l => le_maxVar (mem_softs declared).1
        exact Or.inr (Clause.not_mentions_of_ids ids above)
      · exact Or.inl old
  · exact normalize_eq_error_iff
  · have norm := normalizes_of_ok done
    exact ⟨norm.numVars_eq, norm.selectors_eq⟩

/-- The largest variable stands in a clause of weight zero, which is dropped. Two selectors take
the last two ids; the unit of the second is hard. A third would find none. -/
theorem build_allocates_ids_last_two :
    let p : Problem := {
      top := .finite 5
      entries := [.weighted [Lit.pos 7, Lit.pos 3] (-2) 1,
        .weighted [Lit.pos 2147483645, Lit.pos 1] 0 0, .weighted [Lit.neg 7, Lit.pos 2] (-5) 0] }
    let f : Formula := {
      numVars := 2147483647
      inputVars := 2147483645
      hard := [⟨[Lit.pos 2147483646, Lit.neg 7], 1⟩, ⟨[Lit.pos 2147483646, Lit.neg 3], 1⟩,
        ⟨[Lit.neg 2147483646, Lit.pos 7, Lit.pos 3], 1⟩, ⟨[Lit.pos 2147483647, Lit.pos 7], 0⟩,
        ⟨[Lit.pos 2147483647, Lit.neg 2], 0⟩, ⟨[Lit.neg 2147483647, Lit.neg 7, Lit.pos 2], 0⟩,
        ⟨[Lit.neg 2147483647], 0⟩]
      soft := [⟨[Lit.neg 2147483646], 2, 1⟩]
      numPartitions := 2
      topWeight := 5
      offset := -7
      comments := [] }
    let q : Problem := { p with entries := .weighted [Lit.pos 1, Lit.pos 2] (-1) 0 :: p.entries }
    p.build = .ok f ∧ f.numVars = p.maxVar + p.selectors ∧
      Selects p.top 2147483647 ⟨[Lit.neg 7, Lit.pos 2], -5, 0⟩ f.hard f.soft ∧
      q.build = .error .tooManyVariables ∧
      normalize .infinite 3000000000 q.negatives = .error 3000000000 ∧
      normalize .infinite 3000000000 [] = .ok { numVars := 3000000000 } := by
  intro p f q
  have built : p.build = .ok f := by
    unfold f
    cbv
  obtain ⟨_, ids, _⟩ := build_allocates_ids p
  obtain ⟨failing, _, normalizing⟩ := build_allocates_ids q
  obtain ⟨_, numVars, _, selects, _⟩ := ids f built
  refine ⟨built, numVars, selects 1 _ (by cbv), ?_, ?_, rfl⟩
  · exact (failing _).mpr ⟨rfl, Or.inr (by cbv)⟩
  · exact ((normalizing .infinite 3000000000 q.negatives).1 _).mpr (by cbv)

end Problem

end MaxSat

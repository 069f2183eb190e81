import MaxSat.Proofs.Formula.Allocation

/-!
# What normalization derives

Every derived clause comes from one clause that is normalized: it is the negation
of a literal that stands for the clause, or a part of the definition of its
selector. So derived clauses have no variables and partitions of their own but
the selectors, and the soft ones are units, in the order of their clauses.
-/

namespace MaxSat

/-- A literal that is as true as the clause: its only one, or a selector after `n` and up to
`k`. -/
def SoftClause.StandsFor (n k : Nat) (s : SoftClause) (l : Lit) : Prop :=
  s.clause = [l] ∨ ∃ sel, n < sel ∧ sel ≤ k ∧ l = Lit.pos sel

theorem SoftClause.StandsFor.mono {m n k : Nat} {s : SoftClause} {l : Lit}
    (stands : s.StandsFor n k l) (le : m ≤ n) : s.StandsFor m k l := by
  rcases stands with only | ⟨sel, above, below, eq⟩
  · exact Or.inl only
  · exact Or.inr ⟨sel, by omega, below, eq⟩

/-- The hard clauses that a clause can give. -/
inductive DerivedHard (top : TopWeight) (n k : Nat) (s : SoftClause) : HardClause → Prop
  | unit {l : Lit} (stands : s.StandsFor n k l) (refused : top.admits (-s.weight) = false) :
      DerivedHard top n k s ⟨[l.negate], s.partition⟩
  | part {sel : Nat} {h : HardClause} (above : n < sel) (below : sel ≤ k)
      (mem : h ∈ Normalized.definition sel s.clause s.partition) : DerivedHard top n k s h

theorem DerivedHard.mono {top : TopWeight} {m n k : Nat} {s : SoftClause} {h : HardClause}
    (derived : DerivedHard top n k s h) (le : m ≤ n) : DerivedHard top m k s h := by
  cases derived with
  | unit stands refused => exact .unit (stands.mono le) refused
  | part above below mem => exact .part (by omega) below mem

/-- The soft clause that a clause can give. -/
inductive DerivedSoft (top : TopWeight) (n k : Nat) (s : SoftClause) : SoftClause → Prop
  | unit {l : Lit} (stands : s.StandsFor n k l) (admitted : top.admits (-s.weight) = true) :
      DerivedSoft top n k s ⟨[l.negate], -s.weight, s.partition⟩

theorem DerivedSoft.mono {top : TopWeight} {m n k : Nat} {s t : SoftClause}
    (derived : DerivedSoft top n k s t) (le : m ≤ n) : DerivedSoft top m k s t := by
  cases derived with
  | unit stands admitted => exact .unit (stands.mono le) admitted

namespace Normalizes

variable {top : TopWeight} {n : Nat} {negs : List SoftClause} {r : Normalized}

theorem mem_hard (norm : Normalizes top n negs r) :
    ∀ h ∈ r.hard, ∃ s ∈ negs, DerivedHard top n r.numVars s h := by
  induction norm with
  | nil => simp
  | void _ _ ih =>
    intro h mem
    obtain ⟨s, found, derived⟩ := ih h mem
    exact ⟨s, by simp [found], derived⟩
  | @unit n s rest r l _ clause _ ih =>
    intro h mem
    rw [Normalized.numVars_addUnit]
    rcases (Normalized.mem_hard_addUnit _ _ _ _ _).mp mem with ⟨refused, rfl⟩ | mem
    · exact ⟨s, by simp, .unit (Or.inl clause) refused⟩
    · obtain ⟨t, found, derived⟩ := ih h mem
      exact ⟨t, by simp [found], derived⟩
  | @wide n s rest r _ _ _ tail ih =>
    intro h mem
    have room : n + 1 ≤ r.numVars := tail.le_numVars
    rw [Normalized.numVars_addSelector]
    rcases List.mem_append.mp mem with mem | mem
    · exact ⟨s, by simp, .part (by omega) room mem⟩
    · rcases (Normalized.mem_hard_addUnit _ _ _ _ _).mp mem with ⟨refused, rfl⟩ | mem
      · exact ⟨s, by simp, .unit (Or.inr ⟨n + 1, by omega, room, rfl⟩) refused⟩
      · obtain ⟨t, found, derived⟩ := ih h mem
        exact ⟨t, by simp [found], derived.mono (by omega)⟩

theorem mem_soft (norm : Normalizes top n negs r) :
    ∀ t ∈ r.soft, ∃ s ∈ negs, DerivedSoft top n r.numVars s t := by
  induction norm with
  | nil => simp
  | void _ _ ih =>
    intro t mem
    obtain ⟨s, found, derived⟩ := ih t mem
    exact ⟨s, by simp [found], derived⟩
  | @unit n s rest r l _ clause _ ih =>
    intro t mem
    rw [Normalized.numVars_addUnit]
    rcases (Normalized.mem_soft_addUnit _ _ _ _ _).mp mem with ⟨admitted, rfl⟩ | mem
    · exact ⟨s, by simp, .unit (Or.inl clause) admitted⟩
    · obtain ⟨u, found, derived⟩ := ih t mem
      exact ⟨u, by simp [found], derived⟩
  | @wide n s rest r _ _ _ tail ih =>
    intro t mem
    have room : n + 1 ≤ r.numVars := tail.le_numVars
    rw [Normalized.numVars_addSelector]
    rcases (Normalized.mem_soft_addUnit _ _ _ _ _).mp mem with ⟨admitted, rfl⟩ | mem
    · exact ⟨s, by simp, .unit (Or.inr ⟨n + 1, by omega, room, rfl⟩) admitted⟩
    · obtain ⟨u, found, derived⟩ := ih t mem
      exact ⟨u, by simp [found], derived.mono (by omega)⟩

theorem soft_admitted (norm : Normalizes top n negs r) :
    ∀ t ∈ r.soft, top.admits t.weight = true := by
  intro t mem
  obtain ⟨s, -, ⟨-, admitted⟩⟩ := norm.mem_soft t mem
  exact admitted

theorem hard_ne_nil (norm : Normalizes top n negs r) : ∀ h ∈ r.hard, h.clause ≠ [] := by
  intro h mem
  obtain ⟨s, -, derived⟩ := norm.mem_hard h mem
  cases derived with
  | unit => simp
  | part _ _ mem =>
    simp only [Normalized.definition, List.mem_append, List.mem_map, List.mem_singleton] at mem
    rcases mem with ⟨l, -, rfl⟩ | rfl
    · simp
    · simp

end Normalizes

/-- All variables of derived clauses satisfy `P`, and their partitions `Q`. -/
structure Normalized.All (P Q : Nat → Prop) (n : Normalized) : Prop where
  hard : ∀ h ∈ n.hard, Q h.partition ∧ ∀ l ∈ h.clause, P l.var
  soft : ∀ s ∈ n.soft, Q s.partition ∧ ∀ l ∈ s.clause, P l.var

/-- What holds of the clauses and of the selectors holds of derived clauses. -/
theorem Normalizes.all {P Q : Nat → Prop} {top : TopWeight} {n : Nat} {negs : List SoftClause}
    {r : Normalized} (norm : Normalizes top n negs r)
    (declared : ∀ s ∈ negs, Q s.partition ∧ ∀ l ∈ s.clause, P l.var)
    (selectors : ∀ v, n < v → v ≤ r.numVars → P v) : r.All P Q := by
  have proxy : ∀ s ∈ negs, ∀ l, s.StandsFor n r.numVars l → P l.var := by
    rintro s mem l (only | ⟨sel, above, below, rfl⟩)
    · exact (declared s mem).2 l (by simp [only])
    · exact selectors sel above below
  constructor
  · intro h mem
    obtain ⟨s, found, derived⟩ := norm.mem_hard h mem
    obtain ⟨partition, lits⟩ := declared s found
    cases derived with
    | unit stands => exact ⟨partition, by simpa [Lit.negate] using proxy s found _ stands⟩
    | @part sel _ above below mem =>
      have selector := selectors sel above below
      simp only [Normalized.definition, List.mem_append, List.mem_map, List.mem_singleton] at mem
      rcases mem with ⟨l, inside, rfl⟩ | rfl
      · exact ⟨partition, by simpa using ⟨selector, lits l inside⟩⟩
      · exact ⟨partition, by simpa using ⟨selector, lits⟩⟩
  · intro t mem
    obtain ⟨s, found, ⟨stands, -⟩⟩ := norm.mem_soft t mem
    exact ⟨(declared s found).1, by simpa [Lit.negate] using proxy s found _ stands⟩

theorem Normalized.length_addUnit (top : TopWeight) (l : Lit) (w : Weight) (q : Nat)
    (n : Normalized) :
    (n.addUnit top l w q).hard.length + (n.addUnit top l w q).soft.length =
      n.hard.length + n.soft.length + 1 := by
  cases admitted : top.admits w with
  | true => simp [addUnit, admitted, Nat.add_assoc]
  | false => simp [addUnit, admitted, Nat.add_right_comm]

namespace Normalizes

variable {top : TopWeight} {n : Nat} {negs : List SoftClause} {r : Normalized}

/-- A clause of `k` literals gives `k + 2` clauses at most. -/
theorem length_le (norm : Normalizes top n negs r) :
    r.hard.length + r.soft.length ≤ (negs.map fun s => s.clause.length + 2).sum := by
  induction norm with
  | nil => simp
  | void _ _ ih =>
    rw [List.map_cons, List.sum_cons]
    omega
  | @unit n s rest r l _ _ _ ih =>
    have more := Normalized.length_addUnit top l (-s.weight) s.partition r
    rw [List.map_cons, List.sum_cons]
    omega
  | @wide n s rest r _ _ _ _ ih =>
    have more := Normalized.length_addUnit top (Lit.pos (n + 1)) (-s.weight) s.partition r
    rw [List.map_cons, List.sum_cons]
    simp only [Normalized.addSelector, Normalized.definition, List.length_append, List.length_map,
      List.length_singleton]
    omega

theorem hard_of_zero (norm : Normalizes top n negs r) (zero : ∀ s ∈ negs, s.weight = 0) :
    r.hard = [] := by
  induction norm with
  | nil => rfl
  | void _ _ ih => exact ih fun s mem => zero s (by simp [mem])
  | unit nonzero => exact absurd (zero _ (by simp)) nonzero
  | wide nonzero => exact absurd (zero _ (by simp)) nonzero

/-- Clauses that have to be false give other hard clauses than themselves: the first one has a
literal turned around, or a selector. -/
theorem hard_ne (norm : Normalizes top n negs r)
    (refused : ∀ s ∈ negs, s.weight ≠ 0 ∧ top.admits (-s.weight) = false)
    (ids : ∀ s ∈ negs, ∀ l ∈ s.clause, l.var ≤ n) (some : negs ≠ []) :
    r.hard.map HardClause.clause ≠ negs.map SoftClause.clause := by
  intro same
  have nonempty := norm.hard_ne_nil
  cases norm with
  | nil => exact some rfl
  | @void _ s rest _ void tail =>
    rcases void with zero | empty
    · exact (refused s (by simp)).1 zero
    · have mem : ([] : Clause) ∈ r.hard.map HardClause.clause := by simp [same, empty]
      obtain ⟨h, found, clause⟩ := List.mem_map.mp mem
      exact nonempty h found clause
  | @unit _ s rest t l _ clause tail =>
    have hard := (refused s (by simp)).2
    simp only [Normalized.addUnit, hard, clause, List.map_cons] at same
    have turned : l.negate = l := (List.cons.inj (List.cons.inj same).1).1
    have sign := congrArg Lit.positive turned
    simp [Lit.negate] at sign
  | @wide _ s rest t _ long _ tail =>
    obtain ⟨l, c, clause⟩ := List.exists_cons_of_length_pos (Nat.lt_of_lt_of_le (by decide) long)
    simp only [Normalized.addSelector, Normalized.definition, clause, List.map_cons,
      List.cons_append] at same
    have selector : Lit.pos (n + 1) ∈ l :: c := by
      rw [← (List.cons.inj same).1]
      simp
    have := ids s (by simp) (Lit.pos (n + 1)) (clause ▸ selector)
    simp [Lit.pos] at this

end Normalizes

/-- The unit derived from a clause whose weight is not positive, if its selector is `sel`. -/
def SoftClause.unit? (top : TopWeight) (sel : Nat) (s : SoftClause) : Option SoftClause :=
  if s.weight = 0 || !top.admits (-s.weight) then none
  else match s.clause with
    | [] => none
    | [l] => some ⟨[l.negate], -s.weight, s.partition⟩
    | _ => some ⟨[Lit.neg sel], -s.weight, s.partition⟩

/-- The units that are soft, one for each clause. Selectors are counted from `n` on over the
clauses in front. -/
def derivedUnits (top : TopWeight) (n : Nat) (negs : List SoftClause) : List SoftClause :=
  (negs.zip negs.inits).filterMap fun (s, before) =>
    s.unit? top (n + before.countP SoftClause.isWide + 1)

theorem derivedUnits_cons (top : TopWeight) (n : Nat) (s : SoftClause) (rest : List SoftClause) :
    derivedUnits top n (s :: rest) = (s.unit? top (n + 1)).toList ++
      derivedUnits top (if s.isWide then n + 1 else n) rest := by
  have count : ∀ before : List SoftClause, n + (s :: before).countP SoftClause.isWide + 1 =
      (if s.isWide then n + 1 else n) + before.countP SoftClause.isWide + 1 := by
    intro before
    cases wide : s.isWide with
    | true =>
      rw [List.countP_cons_of_pos wide, if_pos rfl]
      omega
    | false => rw [List.countP_cons_of_neg (by simp [wide]), if_neg (by simp)]
  have later : (fun x : SoftClause × List SoftClause =>
        x.1.unit? top (n + x.2.countP SoftClause.isWide + 1)) ∘ Prod.map id (s :: ·) =
      fun x =>
        x.1.unit? top ((if s.isWide then n + 1 else n) + x.2.countP SoftClause.isWide + 1) := by
    funext x
    simp only [Function.comp, Prod.map, id, count]
  simp only [derivedUnits, List.inits_cons, List.zip_cons_cons, List.zip_map_right,
    List.filterMap_cons, List.filterMap_map, later, List.countP_nil, Nat.add_zero]
  cases s.unit? top (n + 1) with
  | none => rfl
  | some unit => rfl

namespace Normalizes

/-- Normalization derives these units and no other soft clause. -/
theorem soft_eq {top : TopWeight} {n : Nat} {negs : List SoftClause} {r : Normalized}
    (norm : Normalizes top n negs r) : r.soft = derivedUnits top n negs := by
  induction norm with
  | nil => rfl
  | @void n s rest r void _ ih =>
    have narrow := SoftClause.isWide_of_void void
    have none : s.unit? top (n + 1) = none := by
      rcases void with zero | empty
      · simp [SoftClause.unit?, zero]
      · simp [SoftClause.unit?, empty]
    simp [derivedUnits_cons, narrow, none, ih]
  | @unit n s rest r l nonzero clause _ ih =>
    have narrow : s.isWide = false := by simp [SoftClause.isWide, clause]
    rw [derivedUnits_cons, narrow, if_neg (by simp), ← ih]
    cases admitted : top.admits (-s.weight) with
    | true => simp [Normalized.addUnit, SoftClause.unit?, admitted, nonzero, clause]
    | false => simp [Normalized.addUnit, SoftClause.unit?, admitted]
  | @wide n s rest r nonzero long _ _ ih =>
    have wide := SoftClause.isWide_of_length nonzero long
    rw [derivedUnits_cons, wide, if_pos rfl, ← ih]
    cases admitted : top.admits (-s.weight) with
    | true =>
      rcases clause : s.clause with _ | ⟨l, _ | ⟨m, c⟩⟩
      · simp [clause] at long
      · simp [clause] at long
      · simp [Normalized.addSelector, Normalized.addUnit, SoftClause.unit?, admitted, nonzero,
          clause, Lit.negate, Lit.pos, Lit.neg]
    | false => simp [Normalized.addSelector, Normalized.addUnit, SoftClause.unit?, admitted]

end Normalizes

end MaxSat

import MaxSat.Proofs.HittingSet.Minimum

/-!
# The bound of a marking

The bound goes through the cores in order. It counts a core if no member of it is
chosen and none is in a core counted before, whether ruled out or not, and adds the
weight of the cheapest member that is not ruled out. So the counted cores are
disjoint, and every other core is hit or meets one of them.

A set that completes the chosen variables to a hitting set has a member of its own
in each counted core, one that is not ruled out, and so it weighs at least as much
as the bound. This holds for any chosen and forbidden variables, not only for those
that the search can arrive at, and it is where negative weights would be wrong: they
could pay for variables that no core needs.
-/

namespace MaxSat.HittingSet

/-- The cores that share no member with `used` and none with a core counted before. -/
def counted (used : List Nat) : List (List Nat) → List (List Nat)
  | [] => []
  | core :: rest =>
    if hits used core then counted used rest else core :: counted (core ++ used) rest

/-- The weight of the cheapest member that is not ruled out, nothing if all of them are. -/
def Marks.leastOpen (weight : Nat → Weight) (m : Marks) (core : List Nat) : Weight :=
  match cheapest? weight (m.openIn core) with
  | some v => weight v
  | none => 0

theorem boundFrom_eq_total (weight : Nat → Weight) (m : Marks) (used : List Nat)
    (cores : List (List Nat)) :
    boundFrom weight m used cores =
      Weight.total ((counted used cores).map (m.leastOpen weight)) := by
  induction cores generalizing used with
  | nil => rfl
  | cons core rest ih =>
    rw [boundFrom, counted]
    split
    · exact ih used
    · rw [ih (core ++ used)]
      rfl

@[simp] theorem hits_append (s t core : List Nat) :
    hits (s ++ t) core = (hits s core || hits t core) := by
  rw [Bool.eq_iff_iff]
  simp only [Bool.or_eq_true, hits_iff, List.mem_append]
  grind

/-- Leaving the cores out that are hit already is the same as having used the chosen
variables. -/
theorem counted_filter (chosen used : List Nat) (cores : List (List Nat)) :
    counted used (cores.filter fun core => !hits chosen core) =
      counted (used ++ chosen) cores := by
  induction cores generalizing used with
  | nil => rfl
  | cons core rest ih =>
    by_cases hit : hits chosen core = true
    · simp [counted, hit, ih]
    · by_cases met : hits used core = true <;> simp [counted, hit, met, ih]

theorem counted_sublist (used : List Nat) (cores : List (List Nat)) :
    (counted used cores).Sublist cores := by
  fun_induction counted used cores with
  | case1 => exact .slnil
  | case2 used core rest _ ih => exact ih.cons core
  | case3 used core rest _ ih => exact ih.cons_cons core

theorem not_mem_used_of_counted {used core : List Nat} {cores : List (List Nat)}
    (mem : core ∈ counted used cores) {v : Nat} (inCore : v ∈ core) : v ∉ used := by
  fun_induction counted used cores with
  | case1 => cases mem
  | case2 used _ rest _ ih => exact ih mem
  | case3 used first rest apart ih =>
    intro inUsed
    rcases List.mem_cons.mp mem with rfl | mem
    · exact apart (hits_iff.mpr ⟨v, inCore, inUsed⟩)
    · exact ih mem (List.mem_append_right first inUsed)

theorem counted_disjoint (used : List Nat) (cores : List (List Nat)) :
    (counted used cores).Pairwise List.Disjoint := by
  fun_induction counted used cores with
  | case1 => exact .nil
  | case2 used _ rest _ ih => exact ih
  | case3 used core rest _ ih =>
    refine List.pairwise_cons.mpr ⟨?_, ih⟩
    intro other mem v inCore inOther
    exact not_mem_used_of_counted mem inOther (List.mem_append_left used inCore)

/-- No further core can be counted: each of the others has a member that is used. -/
theorem counted_or_met {used core : List Nat} {cores : List (List Nat)} (mem : core ∈ cores) :
    core ∈ counted used cores ∨
      ∃ v ∈ core, v ∈ used ∨ ∃ other ∈ counted used cores, v ∈ other := by
  fun_induction counted used cores with
  | case1 => cases mem
  | case2 used first rest met ih =>
    rcases List.mem_cons.mp mem with rfl | mem
    · obtain ⟨v, inCore, inUsed⟩ := hits_iff.mp met
      exact Or.inr ⟨v, inCore, Or.inl inUsed⟩
    · exact ih mem
  | case3 used first rest _ ih =>
    rcases List.mem_cons.mp mem with rfl | mem
    · exact Or.inl (by simp)
    · rcases ih mem with found | ⟨v, inCore, inUsed | ⟨other, found, inOther⟩⟩
      · exact Or.inl (by simp [found])
      · refine Or.inr ⟨v, inCore, ?_⟩
        rcases List.mem_append.mp inUsed with inFirst | inUsed
        · exact Or.inr ⟨first, by simp, inFirst⟩
        · exact Or.inl inUsed
      · exact Or.inr ⟨v, inCore, Or.inr ⟨other, by simp [found], inOther⟩⟩

/-- Whatever is chosen and forbidden, the bound adds up the cheapest open members of disjoint
cores that are not hit, and every other core is hit or meets one of these. No set of variables
that are not forbidden, of weights that are not negative, weighs less if it hits every core
together with the chosen ones; it may even name these again. -/
theorem lowerBound_is_admissible (weight : Nat → Weight) (cores : List (List Nat))
    (chosen forbidden : List Nat) :
    let m : Marks := ⟨chosen, forbidden, cores.filter fun core => !hits chosen core⟩
    (∃ family : List (List Nat), family.Sublist cores ∧ family.Pairwise List.Disjoint ∧
      (∀ core ∈ family, ∀ v ∈ core, v ∉ chosen) ∧
      (∀ core ∈ cores, core ∈ family ∨
        ∃ v ∈ core, v ∈ chosen ∨ ∃ other ∈ family, v ∈ other) ∧
      lowerBound weight m = Weight.total (family.map (m.leastOpen weight))) ∧
    ∀ set : Finset Nat, (∀ v ∈ set, 0 ≤ weight v) → (∀ v ∈ set, v ∉ forbidden) →
      (∀ core ∈ cores, ∃ v ∈ core, v ∈ chosen ∨ v ∈ set) →
      lowerBound weight m ≤ ∑ v ∈ set, weight v := by
  intro m
  constructor
  · refine ⟨counted chosen cores, counted_sublist _ _, counted_disjoint _ _,
      fun core mem v inCore => not_mem_used_of_counted mem inCore,
      fun core mem => counted_or_met mem, ?_⟩
    rw [lowerBound, boundFrom_eq_total, counted_filter, List.nil_append]
  · intro set nonneg allowed hitting
    refine lowerBound_le_completion nonneg ⟨allowed, fun core mem => ?_⟩
    obtain ⟨inCores, unhit⟩ := List.mem_filter.mp mem
    obtain ⟨v, inCore, isChosen | inSet⟩ := hitting core inCores
    · have hit : hits chosen core = true := hits_iff.mpr ⟨v, inCore, isChosen⟩
      simp [hit] at unhit
    · exact ⟨v, inCore, inSet⟩

/-- The forbidden variable 2 keeps the second core from being counted after the first. The
bound is the weight of the set that takes 1 and 3, which hits that core too. -/
theorem lowerBound_is_admissible_overlap :
    let weight : Nat → Weight := fun v => v
    let cores := [[1, 2], [2, 3], [3, 4], [5, 6]]
    let m : Marks := ⟨[6], [2], [[1, 2], [2, 3], [3, 4]]⟩
    let set : Finset Nat := {1, 3}
    m.unhit = (cores.filter fun core => !hits m.chosen core) ∧
      (∀ core ∈ cores, ∃ v ∈ core, v ∈ m.chosen ∨ v ∈ set) ∧ lowerBound weight m = 4 ∧
      lowerBound weight m ≤ ∑ v ∈ set, weight v := by
  intro weight cores m set
  have hitting : ∀ core ∈ cores, ∃ v ∈ core, v ∈ m.chosen ∨ v ∈ set := by decide
  refine ⟨rfl, hitting, by decide +kernel, ?_⟩
  refine (lowerBound_is_admissible weight cores [6] [2]).2 set ?_ (by decide) hitting
  intro v _
  exact Nat.cast_nonneg v

end MaxSat.HittingSet

import Mathlib.Algebra.Order.Group.Unbundled.Abs
import Mathlib.Data.List.Perm.Subperm
import MaxSat.Proofs.Formula.RoundTrip
import MaxSat.Random.Instance

/-!
# Random instances are feasible

The generator is proved over every source that stays within the bounds it is asked
for, and the seeded stream is such a source. A clause is drawn with distinct
variables until it is as long as asked or has every variable; planting flips at most
one literal, so the hidden assignment satisfies each hard clause. Weights stay
below the top, so no clause and no negation of one becomes hard by its weight, and
the hidden assignment extends to the selectors.

Nothing is said about how the choices are spread, nor that a source ever completes a
clause: the number of draws is arbitrary, and a clause that runs out of them gives no
instance.
-/

namespace MaxSat

open ChoiceSource

/-- The high half of a product with the size of the range lies in the range, and leaves room for
a carry where the low half could give one. -/
theorem scaled_lt {n r w : Nat} (word : w < n) (some : 0 < r) (small : r < n) :
    w * r / n < r ∧ (n - r < w * r % n → w * r / n + 1 < r) := by
  have parts := Nat.div_add_mod (w * r) n
  have room : w * r + r ≤ n * r := by
    rw [← Nat.succ_mul]
    exact Nat.mul_le_mul_right r word
  constructor
  · rw [Nat.div_lt_iff_lt_mul (by omega), Nat.mul_comm r n]
    omega
  · intro carry
    by_contra full
    have all : n * r ≤ n * (w * r / n + 1) := Nat.mul_le_mul_left n (by omega)
    rw [Nat.mul_succ] at all
    omega

namespace KeyStream

theorem word_lt (s : KeyStream) (size : WordSize) : (s.word size).1 < size.values := by
  cases size with
  | bits32 => exact UInt32.toNat_lt _
  | bits64 =>
    have low := UInt32.toNat_lt s.next.1
    have high := UInt32.toNat_lt s.next.2.next.1
    simp only [word, nextWide, WordSize.values]
    omega

theorem bounded : Bounded KeyStream := by
  intro s size lo hi le
  have word := s.word_lt size
  have values : 0 < size.values := by
    cases size with
    | bits32 => decide
    | bits64 => decide
  change lo ≤ (s.pick size lo hi).1 ∧ (s.pick size lo hi).1 ≤ hi
  rw [pick]
  generalize s.word size = drawn at word
  obtain ⟨w, t⟩ := drawn
  dsimp only at word ⊢
  by_cases full : (hi - lo + 1) % size.values = 0
  · have most := Nat.le_of_dvd (by omega) (Nat.dvd_of_mod_eq_zero full)
    rw [if_pos full]
    dsimp only
    omega
  · have fits := Nat.mod_le (hi - lo + 1) size.values
    obtain ⟨inside, carried⟩ := scaled_lt word (Nat.pos_of_ne_zero full)
      (Nat.mod_lt (hi - lo + 1) values)
    rw [if_neg full]
    generalize w * ((hi - lo + 1) % size.values) / size.values = high at inside carried ⊢
    split
    · rename_i close
      have inside := carried close
      dsimp only
      split
      · omega
      · omega
    · dsimp only
      omega

end KeyStream

/-- Up to `width` literals of distinct variables from 1 to `vars`. -/
structure Clause.Sampled (vars width : Nat) (c : Clause) : Prop where
  distinct : (c.map Lit.var).Nodup
  ids : ∀ v ∈ c.map Lit.var, 1 ≤ v ∧ v ≤ vars
  length : c.length ≤ width

namespace Clause.Sampled

variable {vars width : Nat} {c d : Clause}

/-- There are no more distinct variables than `vars`. -/
theorem length_le_vars (sampled : Sampled vars width c) : c.length ≤ vars := by
  have inside : c.map Lit.var ⊆ List.range' 1 vars := by
    intro v mem
    have := sampled.ids v mem
    rw [List.mem_range'_1]
    omega
  simpa using (List.subperm_of_subset sampled.distinct inside).length_le

theorem push (sampled : Sampled vars width c) {l : Lit} (fresh : ∀ k ∈ c, k.var ≠ l.var)
    (id : 1 ≤ l.var ∧ l.var ≤ vars) (short : c.length < width) :
    Sampled vars width (l :: c) := by
  refine ⟨?_, ?_, short⟩
  · rw [List.map_cons, List.nodup_cons]
    refine ⟨?_, sampled.distinct⟩
    intro mem
    obtain ⟨k, found, same⟩ := List.mem_map.mp mem
    exact fresh k found same
  · rw [List.map_cons, List.forall_mem_cons]
    exact ⟨id, sampled.ids⟩

theorem reverse (sampled : Sampled vars width c) : Sampled vars width c.reverse := by
  refine ⟨?_, ?_, by simpa using sampled.length⟩
  · rw [List.map_reverse, List.nodup_reverse]
    exact sampled.distinct
  · intro v mem
    rw [List.map_reverse, List.mem_reverse] at mem
    exact sampled.ids v mem

/-- Only the variables count. -/
theorem congr (sampled : Sampled vars width c) (same : d.map Lit.var = c.map Lit.var) :
    Sampled vars width d := by
  have length := congrArg List.length same
  simp only [List.length_map] at length
  exact ⟨same ▸ sampled.distinct, same ▸ sampled.ids, length ▸ sampled.length⟩

theorem mono {more : Nat} (sampled : Sampled vars width c) (le : width ≤ more) :
    Sampled vars more c :=
  ⟨sampled.distinct, sampled.ids, Nat.le_trans sampled.length le⟩

end Clause.Sampled

namespace RandomInstance

/-- What every step gives, all results have, and there are as many as asked for. -/
theorem collect_spec {γ α : Type} {step : γ → Except RandomFault (α × γ)} {P : α → Prop}
    (each : ∀ g a g', step g = .ok (a, g') → P a) {n : Nat} {acc as : List α} {g g' : γ}
    (before : ∀ a ∈ acc, P a) (collected : collect step n acc g = .ok (as, g')) :
    (∀ a ∈ as, P a) ∧ as.length = acc.length + n := by
  induction n generalizing acc g with
  | zero =>
    cases collected
    exact ⟨fun a mem => before a (List.mem_reverse.mp mem), by simp⟩
  | succ n ih =>
    rw [collect] at collected
    split at collected
    · cases collected
    · rename_i a g₁ stepped
      have so_far : ∀ b ∈ a :: acc, P b := List.forall_mem_cons.mpr ⟨each _ a _ stepped, before⟩
      obtain ⟨all, count⟩ := ih so_far collected
      refine ⟨all, ?_⟩
      rw [count, List.length_cons]
      omega

variable {γ : Type} [ChoiceSource γ]

/-- A clause that is completed has as many literals as asked for, or all variables. -/
theorem fillClause_sampled (bounded : Bounded γ) {vars len draws : Nat} (some_var : 1 ≤ vars)
    {acc c : Clause} {g g' : γ} (sampled : acc.Sampled vars len)
    (filled : fillClause vars len draws acc g = some (c, g')) :
    c.Sampled vars len ∧ min len vars ≤ c.length := by
  -- by the draws that are left; the literals so far are sampled at every turn
  induction draws generalizing acc g with
  | zero => cases filled
  | succ draws ih =>
    rw [fillClause] at filled
    by_cases long : len ≤ acc.length
    · rw [if_pos long] at filled
      cases filled
      refine ⟨sampled.reverse, ?_⟩
      rw [List.length_reverse]
      omega
    · rw [if_neg long] at filled
      have id := bounded g .bits32 1 vars some_var
      generalize pick g .bits32 1 vars = drawn at filled id
      obtain ⟨v, g₁⟩ := drawn
      dsimp only at filled id
      split at filled
      · split at filled
        · cases filled
          refine ⟨sampled.reverse, ?_⟩
          rw [List.length_reverse]
          omega
        · exact ih sampled filled
      · rename_i fresh
        refine ih (sampled.push (l := ⟨v, (flip g₁).1⟩) ?_ id (Nat.lt_of_not_le long)) filled
        simpa using fresh

theorem drawClause_sampled (bounded : Bounded γ) {draws vars width : Nat} (some_var : 1 ≤ vars)
    (some_width : 1 ≤ width) {c : Clause} {g g' : γ}
    (drawn : drawClause draws vars width g = .ok (c, g')) : c.Sampled vars width ∧ c ≠ [] := by
  have length := bounded g (.forCount width) 1 width some_width
  rw [drawClause] at drawn
  generalize pick g (.forCount width) 1 width = picked at drawn length
  obtain ⟨len, g₁⟩ := picked
  dsimp only at drawn length
  split at drawn
  · cases drawn
  · split at drawn
    · cases drawn
    · rename_i filled
      cases drawn
      obtain ⟨sampled, enough⟩ :=
        fillClause_sampled bounded some_var ⟨by simp, by simp, by simp⟩ filled
      refine ⟨sampled.mono length.2, ?_⟩
      rintro rfl
      rw [List.length_nil] at enough
      omega

theorem map_var_flipAt (i : Nat) (c : Clause) : (flipAt i c).map Lit.var = c.map Lit.var := by
  fun_induction flipAt i c with
  | case1 => rfl
  | case2 l c => rfl
  | case3 i l c ih => simp [ih]

/-- A literal of a false clause is true once it is flipped. -/
theorem holds_flipAt {ν : Valuation} {i : Nat} {c : Clause} (inside : i < c.length)
    (falsified : Clause.holds ν c = false) : Clause.holds ν (flipAt i c) = true := by
  fun_induction flipAt i c with
  | case1 => simp at inside
  | case2 l c =>
    rw [Clause.holds_cons, Bool.or_eq_false_iff] at falsified
    simp [falsified.1]
  | case3 i l c ih =>
    rw [Clause.holds_cons, Bool.or_eq_false_iff] at falsified
    simp [ih (by simpa using inside) falsified.2]

theorem plant_spec (bounded : Bounded γ) {ν : Valuation} {c : Clause} (nonempty : c ≠ []) (g : γ) :
    Clause.holds ν (plant ν c g).1 = true ∧ (plant ν c g).1.map Lit.var = c.map Lit.var := by
  rw [plant]
  by_cases holds : Clause.holds ν c = true
  · rw [if_pos holds]
    exact ⟨holds, rfl⟩
  · have position := bounded g (.forCount (c.length - 1)) 0 (c.length - 1) (Nat.zero_le _)
    have positive := List.length_pos_iff.mpr nonempty
    rw [if_neg holds]
    exact ⟨holds_flipAt (by omega) (Bool.eq_false_iff.mpr holds), map_var_flipAt _ c⟩

/-- What holds of a declared clause under the hidden assignment. -/
structure Draws (s : RandomShape) (ν : Valuation) (e : Entry) : Prop where
  sampled : e.clause.Sampled s.numVars s.width
  nonempty : e.clause ≠ []
  partition : e.partition ≤ s.numBuckets
  planted : ∀ c q, e = .hard c q → Clause.holds ν c = true
  weight : ∀ c w q, e = .weighted c w q → w ≠ 0 ∧ |w| ≤ (s.weightLimit : Weight)

variable {s : RandomShape} {draws : Nat} {ν : Valuation} {e : Entry} {g g' : γ}

theorem drawClause_of_shape (bounded : Bounded γ) {c : Clause}
    (drawn : drawClause draws s.numVars s.width g = .ok (c, g')) :
    c.Sampled s.numVars s.width ∧ c ≠ [] :=
  drawClause_sampled bounded (Nat.le_max_right _ _) (Nat.le_max_right _ _) drawn

theorem drawPartition_le (bounded : Bounded γ) (s : RandomShape) (g : γ) :
    (drawPartition s g).1 ≤ s.numBuckets :=
  (bounded g _ 1 s.numBuckets (Nat.le_max_right _ _)).2

theorem drawHard_draws (bounded : Bounded γ) (drawn : drawHard draws s ν g = .ok (e, g')) :
    Draws s ν e := by
  obtain ⟨⟨c, g₁⟩, clause, rest⟩ := except_map_eq_ok drawn
  obtain ⟨sampled, nonempty⟩ := drawClause_of_shape bounded clause
  obtain ⟨holds, same⟩ := plant_spec bounded (ν := ν) nonempty g₁
  dsimp only at rest
  generalize plant ν c g₁ = flipped at rest holds same
  obtain ⟨d, g₂⟩ := flipped
  dsimp only at rest holds same
  have partition := drawPartition_le bounded s g₂
  generalize drawPartition s g₂ = picked at rest partition
  obtain ⟨p, g₃⟩ := picked
  cases rest
  refine ⟨sampled.congr same, ?_, partition, ?_, by rintro _ _ _ ⟨⟩⟩
  · rintro (rfl : d = [])
    rw [List.map_nil, eq_comm, List.map_eq_nil_iff] at same
    exact nonempty same
  · rintro _ _ ⟨⟩
    exact holds

theorem drawSoft_draws (bounded : Bounded γ) (drawn : drawSoft draws s g = .ok (e, g')) :
    Draws s ν e := by
  obtain ⟨⟨c, g₁⟩, clause, rest⟩ := except_map_eq_ok drawn
  obtain ⟨sampled, nonempty⟩ := drawClause_of_shape bounded clause
  have range := bounded g₁ .bits64 1 s.weightLimit (Nat.le_max_right _ _)
  dsimp only at rest
  generalize pick g₁ .bits64 1 s.weightLimit = picked at rest range
  obtain ⟨k, g₂⟩ := picked
  dsimp only at rest range
  generalize pick g₂ .bits32 0 99 = percent at rest
  obtain ⟨percent, g₃⟩ := percent
  dsimp only at rest
  have partition := drawPartition_le bounded s g₃
  generalize drawPartition s g₃ = place at rest partition
  obtain ⟨p, g₄⟩ := place
  cases rest
  refine ⟨sampled, nonempty, partition, by rintro _ _ ⟨⟩, ?_⟩
  have nonzero : (k : Weight) ≠ 0 := Nat.cast_ne_zero.mpr (by omega)
  have size : |(k : Weight)| ≤ (s.weightLimit : Weight) := by
    rw [abs_of_nonneg (Nat.cast_nonneg k)]
    exact_mod_cast range.2
  rintro _ _ _ ⟨⟩
  split
  · exact ⟨neg_ne_zero.mpr nonzero, by rwa [abs_neg]⟩
  · exact ⟨nonzero, size⟩

theorem drawEntries_spec (bounded : Bounded γ) {planted : Array Bool} {entries : List Entry}
    (drawn : drawEntries draws s g = .ok (planted, entries)) :
    planted.size = s.numVars + 1 ∧ ∀ e ∈ entries, Draws s (valuation planted) e := by
  obtain ⟨⟨flips, g₁⟩, flipped, rest⟩ := except_bind_eq_ok_iff.mp drawn
  obtain ⟨⟨hard, g₂⟩, hards, rest⟩ := except_bind_eq_ok_iff.mp rest
  obtain ⟨⟨soft, g₃⟩, softs, rest⟩ := except_bind_eq_ok_iff.mp rest
  cases rest
  have count := (collect_spec (P := fun _ => True) (fun _ _ _ _ => trivial) (by simp) flipped).2
  have hards := (collect_spec (P := Draws s (valuation flips.toArray))
    (fun _ _ _ => drawHard_draws bounded) (by simp) hards).1
  have softs := (collect_spec (P := Draws s (valuation flips.toArray))
    (fun _ _ _ => drawSoft_draws bounded) (by simp) softs).1
  refine ⟨by simpa using count, fun e mem => ?_⟩
  rcases List.mem_append.mp mem with mem | mem
  · exact hards e mem
  · exact softs e mem

/-- What is promised of an instance, the clauses declared for it and the hidden assignment. A
clause is hard as declared or as a part of a selector's definition, never by its weight. -/
structure Plants (s : RandomShape) (planted : Array Bool) (entries : List Entry) (f : Formula) :
    Prop where
  built : ∃ comment, (problem s comment entries).build = .ok f
  size : planted.size = s.numVars + 1
  inputVars : f.inputVars ≤ s.numVars
  nonempty : ∀ e ∈ entries, e.clause ≠ []
  distinct : ∀ e ∈ entries, (e.clause.map Lit.var).Nodup
  ids : ∀ e ∈ entries, ∀ l ∈ e.clause, 1 ≤ l.var ∧ l.var ≤ s.numVars
  length : ∀ e ∈ entries, e.clause.length ≤ min s.width s.numVars
  weights : ∀ c w q, Entry.weighted c w q ∈ entries → w ≠ 0 ∧ |w| < f.topWeight
  hard : ∀ h ∈ f.hard, Entry.hard h.clause h.partition ∈ entries ∨
    ∃ c w q sel, Entry.weighted c w q ∈ entries ∧ f.inputVars < sel ∧ sel ≤ f.numVars ∧
      h ∈ Normalized.definition sel c q
  feasible : ∃ μ, EqUpTo f.inputVars μ (valuation planted) ∧ f.feasible μ = true
  numPartitions : f.numPartitions = s.numBuckets + 1

section Problem

variable {entries : List Entry} (drawn : ∀ e ∈ entries, Draws s ν e) (comment : String)
include drawn

/-- Neither a drawn weight nor its negation reaches the top. -/
theorem admits_drawn {c : Clause} {w : Weight} {q : Nat} (mem : Entry.weighted c w q ∈ entries) :
    |w| < ((s.weightLimit + 1 : Nat) : Weight) ∧ (problem s comment entries).top.admits w = true ∧
      (problem s comment entries).top.admits (-w) = true := by
  have le := ((drawn _ mem).weight c w q rfl).2
  have below : |w| < ((s.weightLimit + 1 : Nat) : Weight) := by
    push_cast
    exact lt_of_le_of_lt le (lt_add_one _)
  refine ⟨below, ?_, ?_⟩
  · simpa [problem, TopWeight.admits] using lt_of_le_of_lt (le_abs_self w) below
  · simpa [problem, TopWeight.admits] using lt_of_le_of_lt (neg_le_abs w) below

theorem meets_drawn : (problem s comment entries).Meets ν := by
  intro e mem
  cases e with
  | hard c q => exact (drawn _ mem).planted c q rfl
  | weighted c w q =>
    obtain ⟨-, admits, admitsNeg⟩ := admits_drawn drawn comment mem
    exact ⟨fun _ refused => by simp [admits] at refused,
      fun _ refused => by simp [admitsNeg] at refused⟩

theorem numPartitions_drawn :
    (problem s comment entries).numPartitions = s.numBuckets + 1 := by
  have least := (Problem.numPartitions_le_iff.mp
    (Nat.le_refl (problem s comment entries).numPartitions)).1
  refine Nat.le_antisymm (Problem.numPartitions_le_iff.mpr ⟨Nat.le_refl _, fun e mem => ?_⟩) least
  have := (drawn e mem).partition
  omega

/-- A weight makes no clause hard. -/
theorem hard_drawn {n : Normalized} {f : Formula}
    (builds : (problem s comment entries).BuildsFrom f n) {h : HardClause} (mem : h ∈ f.hard) :
    Entry.hard h.clause h.partition ∈ entries ∨
      ∃ c w q sel, Entry.weighted c w q ∈ entries ∧ f.inputVars < sel ∧ sel ≤ f.numVars ∧
        h ∈ Normalized.definition sel c q := by
  rw [builds.hard] at mem
  rcases List.mem_append.mp mem with mem | mem
  · obtain ⟨e, found, kind⟩ := List.mem_filterMap.mp mem
    cases e with
    | hard c q =>
      cases kind
      exact Or.inl found
    | weighted c w q =>
      have admits := (admits_drawn drawn comment found).2.1
      simp [Entry.asHard?, admits] at kind
  · obtain ⟨t, negative, derived⟩ := builds.normalized.mem_hard h mem
    have found := (Problem.mem_negatives negative).1
    cases derived with
    | unit stands refused =>
      have admits := (admits_drawn drawn comment found).2.2
      rw [admits] at refused
      cases refused
    | part above below part =>
      rw [builds.inputVars, builds.numVars]
      exact Or.inr ⟨t.clause, t.weight, t.partition, _, found, above, below, part⟩

end Problem

/-- An instance is built from the clauses that are drawn, if the shape is not too large. -/
theorem generate_eq_ok_iff {comment : String} {planted : Array Bool} {entries : List Entry}
    {f : Formula} :
    generate draws s comment g = .ok (planted, entries, f) ↔
      (s.weightLimit + 1 ≤ largestWeight ∧ s.numBuckets + 1 ≤ lastPartition) ∧
        drawEntries draws s g = .ok (planted, entries) ∧
        (problem s comment entries).build = .ok f := by
  rw [generate]
  constructor
  · intro made
    split at made
    · cases made
    · rename_i small
      split at made
      · cases made
      · split at made
        · rename_i drawn _ _ built
          cases made
          exact ⟨by simpa using small, drawn, built⟩
        · cases made
  · rintro ⟨⟨weights, buckets⟩, drawn, built⟩
    simp [drawn, built, Nat.not_lt.mpr weights, Nat.not_lt.mpr buckets]

theorem generate_plants (bounded : Bounded γ) {comment : String} {planted : Array Bool}
    {entries : List Entry} {f : Formula}
    (made : generate draws s comment g = .ok (planted, entries, f)) :
    Plants s planted entries f := by
  obtain ⟨-, drawn, built⟩ := generate_eq_ok_iff.mp made
  obtain ⟨size, drawn⟩ := drawEntries_spec bounded drawn
  obtain ⟨n, builds⟩ := Problem.buildsFrom_of_build built
  obtain ⟨-, r, -, assembled⟩ := Problem.build_eq_ok_iff.mp built
  have top : f.topWeight = ((s.weightLimit + 1 : Nat) : Weight) := by
    rw [assembled]
    rfl
  have ids : ∀ e ∈ entries, ∀ l ∈ e.clause, 1 ≤ l.var ∧ l.var ≤ s.numVars :=
    fun e mem l hl => (drawn e mem).sampled.ids l.var (List.mem_map_of_mem hl)
  refine ⟨⟨comment, built⟩, size, ?_, fun e mem => (drawn e mem).nonempty,
    fun e mem => (drawn e mem).sampled.distinct, ids, ?_, ?_,
    fun h mem => hard_drawn drawn comment builds mem,
    builds.exists_feasible (meets_drawn drawn comment), ?_⟩
  · rw [builds.inputVars]
    exact Problem.maxVar_le_iff.mpr fun e mem l hl => (ids e mem l hl).2
  · intro e mem
    have sampled := (drawn e mem).sampled
    exact Nat.le_min.mpr ⟨sampled.length, sampled.length_le_vars⟩
  · intro c w q mem
    rw [top]
    exact ⟨((drawn _ mem).weight c w q rfl).1, (admits_drawn drawn comment mem).1⟩
  · rw [assembled]
    exact numPartitions_drawn drawn comment

/-- Every instance that a source within its bounds gives is feasible by its hidden assignment and
keeps to its shape; so is the instance of every seed. -/
theorem generate_is_feasible :
    (∀ (γ : Type) [ChoiceSource γ], Bounded γ → ∀ (draws : Nat) (s : RandomShape)
      (comment : String) (g : γ) (planted : Array Bool) (entries : List Entry) (f : Formula),
      generate draws s comment g = .ok (planted, entries, f) → Plants s planted entries f) ∧
    ∀ (s : RandomShape) (seed : UInt64) (f : Formula), Formula.random s seed = .ok f →
      ∃ draws comment planted entries,
        generate draws s comment (KeyStream.ofSeed seed) = .ok (planted, entries, f) ∧
          Plants s planted entries f := by
  refine ⟨fun γ _ bounded draws s comment g planted entries f => generate_plants bounded, ?_⟩
  intro s seed f made
  obtain ⟨⟨planted, entries, f⟩, generated, rfl⟩ := except_map_eq_ok made
  exact ⟨_, _, planted, entries, generated, generate_plants KeyStream.bounded generated⟩

/-- A hard unit that is flipped, a clause with a selector and one that stays soft. -/
theorem generate_is_feasible_seeded :
    let s : RandomShape := {
      vars := 2, hard := 1, soft := 2, partitions := 2, maxWidth := 2, maxWeight := 3,
      negativePercent := 60 }
    let entries : List Entry := [.hard [Lit.neg 1] 1, .weighted [Lit.pos 1, Lit.neg 2] (-3) 1,
      .weighted [Lit.pos 1, Lit.pos 2] 1 1]
    let f : Formula := {
      numVars := 3
      inputVars := 2
      hard := [⟨[Lit.neg 1], 1⟩, ⟨[Lit.pos 3, Lit.neg 1], 1⟩, ⟨[Lit.pos 3, Lit.pos 2], 1⟩,
        ⟨[Lit.neg 3, Lit.pos 1, Lit.neg 2], 1⟩]
      soft := [⟨[Lit.pos 1, Lit.pos 2], 1, 1⟩, ⟨[Lit.neg 3], 3, 1⟩]
      numPartitions := 3
      topWeight := 4
      offset := -3
      comments := ["c random pwcnf seed=1 vars=2"] }
    generate 10 s "c random pwcnf seed=1 vars=2" (KeyStream.ofSeed 1) =
        .ok (#[true, false, true], entries, f) ∧
      Formula.random s 1 = .ok f ∧ Plants s #[true, false, true] entries f ∧
      ∃ draws comment planted entries,
        generate draws s comment (KeyStream.ofSeed 1) = .ok (planted, entries, f) ∧
          Plants s planted entries f := by
  intro s entries f
  have small : s.weightLimit + 1 ≤ largestWeight ∧ s.numBuckets + 1 ≤ lastPartition := by decide
  have built : (problem s "c random pwcnf seed=1 vars=2" entries).build = .ok f := by
    unfold f
    cbv
  have generated : generate 10 s "c random pwcnf seed=1 vars=2" (KeyStream.ofSeed 1) =
      .ok (#[true, false, true], entries, f) :=
    generate_eq_ok_iff.mpr ⟨small, by decide +kernel, built⟩
  have made : Formula.random s 1 = .ok f := by
    have comment : "c random pwcnf seed=" ++ String.ofList (Text.ofNatural (1 : UInt64).toNat) ++
        " vars=" ++ String.ofList (Text.ofNatural s.numVars) = "c random pwcnf seed=1 vars=2" := by
      decide +kernel
    have drawn : drawEntries (1000 * (s.numVars + 1)) s (KeyStream.ofSeed 1) =
        .ok (#[true, false, true], entries) := by decide +kernel
    simp only [Formula.random, comment, generate_eq_ok_iff.mpr ⟨small, drawn, built⟩]
    rfl
  exact ⟨generated, made,
    generate_is_feasible.1 KeyStream KeyStream.bounded 10 s _ _ _ _ f generated,
    generate_is_feasible.2 s 1 f made⟩

end RandomInstance

end MaxSat

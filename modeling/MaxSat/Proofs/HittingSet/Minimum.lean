import Mathlib.Algebra.Order.BigOperators.Group.Finset
import Mathlib.Tactic.Linarith
import MaxSat.HittingSet.Minimum
import MaxSat.Proofs.Basic

/-!
# Branch and bound finds a minimum

A marking is completed by a set that avoids the variables ruled out and hits the
cores that are not hit yet. The bound of a marking is below the weight of each
of its completions, so pruning loses none that would be better; and the siblings
of a node share its completions out among them, each going to the first
candidate that it contains. So the search ends at or below every completion.

That the result is a hitting set needs no assumption on the weights; that it is
one of least weight needs them not to be negative.
-/

namespace MaxSat.HittingSet

theorem hits_iff {set core : List Nat} : hits set core = true ↔ ∃ v ∈ core, v ∈ set := by
  simp [hits]

theorem mem_openIn {m : Marks} {core : List Nat} {v : Nat} :
    v ∈ m.openIn core ↔ v ∈ core ∧ v ∉ m.forbidden := by
  simp [Marks.openIn]

/-- Adding the set to the chosen variables hits every core and takes nothing ruled out. -/
structure Completes (m : Marks) (set : Finset Nat) : Prop where
  allowed : ∀ v ∈ set, v ∉ m.forbidden
  covers : ∀ core ∈ m.unhit, ∃ v ∈ core, v ∈ set

theorem eq_nil_of_minOn?_eq_none {α β : Type} [LE β] [DecidableLE β] {key : α → β} {xs : List α}
    (none_ : xs.minOn? key = none) : xs = [] := by
  by_contra some_
  have least : (xs.minOn? key).isSome = true := List.isSome_minOn?_iff.mpr some_
  rw [none_] at least
  cases least

theorem cheapest?_le (weight : Nat → Weight) {vs : List Nat} {v : Nat} (mem : v ∈ vs) :
    ∃ u, cheapest? weight vs = some u ∧ weight u ≤ weight v := by
  refine ⟨(vs.minOn? weight).get (List.isSome_minOn?_of_mem mem), ?_, ?_⟩
  · exact (Option.some_get _).symm
  · exact List.apply_get_minOn?_le_of_mem mem

/-- The cores that are counted are disjoint, so the set pays for each of them apart. -/
theorem boundFrom_le {weight : Nat → Weight} {m : Marks} {set : Finset Nat}
    (nonneg : ∀ v ∈ set, 0 ≤ weight v) (allowed : ∀ v ∈ set, v ∉ m.forbidden)
    {cores : List (List Nat)} (covers : ∀ core ∈ cores, ∃ v ∈ core, v ∈ set) (used : List Nat) :
    boundFrom weight m used cores ≤ ∑ v ∈ set \ used.toFinset, weight v := by
  induction cores generalizing used with
  | nil => exact Finset.sum_nonneg fun v mem => nonneg v (Finset.mem_sdiff.mp mem).1
  | cons core rest ih =>
    have coversRest : ∀ core ∈ rest, ∃ v ∈ core, v ∈ set := fun c mem => covers c (by simp [mem])
    rw [boundFrom]
    split
    · exact ih coversRest used
    · rename_i disjoint
      obtain ⟨v, inCore, inSet⟩ := covers core (by simp)
      have unused : v ∉ used := fun mem => disjoint (hits_iff.mpr ⟨v, inCore, mem⟩)
      obtain ⟨u, found, le⟩ := cheapest?_le weight (mem_openIn.mpr ⟨inCore, allowed v inSet⟩)
      have apart : v ∉ set \ (core ++ used).toFinset := by simp [inCore]
      have subset : insert v (set \ (core ++ used).toFinset) ⊆ set \ used.toFinset := by
        intro w mem
        rcases Finset.mem_insert.mp mem with same | mem
        · simp [same, inSet, unused]
        · simp only [Finset.mem_sdiff, List.mem_toFinset, List.mem_append] at mem ⊢
          exact ⟨mem.1, fun h => mem.2 (Or.inr h)⟩
      simp only [found]
      calc weight u + boundFrom weight m (core ++ used) rest
          ≤ weight v + ∑ w ∈ set \ (core ++ used).toFinset, weight w :=
            add_le_add le (ih coversRest _)
        _ = ∑ w ∈ insert v (set \ (core ++ used).toFinset), weight w :=
            (Finset.sum_insert apart).symm
        _ ≤ ∑ w ∈ set \ used.toFinset, weight w :=
            Finset.sum_le_sum_of_subset_of_nonneg subset fun w mem _ =>
              nonneg w (Finset.mem_sdiff.mp mem).1

theorem lowerBound_le_completion {weight : Nat → Weight} {m : Marks} {set : Finset Nat}
    (nonneg : ∀ v ∈ set, 0 ≤ weight v) (completes : Completes m set) :
    lowerBound weight m ≤ ∑ v ∈ set, weight v := by
  simpa [lowerBound] using boundFrom_le nonneg completes.allowed completes.covers []

/-- A hitting set of distinct members, with its weight. -/
structure Best.Valid (weight : Nat → Weight) (cores : List (List Nat)) (b : Best) : Prop where
  distinct : b.set.Nodup
  members : ∀ v ∈ b.set, ∃ core ∈ cores, v ∈ core
  covers : ∀ core ∈ cores, hits b.set core = true
  cost : b.cost = Weight.total (b.set.map weight)

/-- Distinct members of cores are chosen, at the given cost, and `unhit` is up to date. -/
structure Marks.Valid (weight : Nat → Weight) (cores : List (List Nat)) (m : Marks)
    (cost : Weight) : Prop where
  distinct : m.chosen.Nodup
  members : ∀ v ∈ m.chosen, ∃ core ∈ cores, v ∈ core
  unhit : m.unhit = cores.filter fun core => !hits m.chosen core
  cost : cost = Weight.total (m.chosen.map weight)

section Markings

variable {weight : Nat → Weight} {cores : List (List Nat)} {m : Marks} {cost : Weight}

theorem Marks.Valid.mem_unhit (valid : m.Valid weight cores cost) {core : List Nat} :
    core ∈ m.unhit ↔ core ∈ cores ∧ ∀ v ∈ core, v ∉ m.chosen := by
  simp [valid.unhit, ← Bool.not_eq_true, hits_iff]

theorem Marks.Valid.forbid (valid : m.Valid weight cores cost) (v : Nat) :
    (m.forbid v).Valid weight cores cost :=
  ⟨valid.distinct, valid.members, valid.unhit, valid.cost⟩

/-- A member of a core that is not hit is new to the chosen ones. -/
theorem Marks.Valid.choose (valid : m.Valid weight cores cost) {core : List Nat} {v : Nat}
    (unhit : core ∈ m.unhit) (mem : v ∈ core) :
    (m.choose v).Valid weight cores (cost + weight v) where
  distinct := List.nodup_cons.mpr ⟨(valid.mem_unhit.mp unhit).2 v mem, valid.distinct⟩
  members u hu := by
    rcases List.mem_cons.mp hu with same | hu
    · exact ⟨core, (valid.mem_unhit.mp unhit).1, same ▸ mem⟩
    · exact valid.members u hu
  unhit := by
    simp only [Marks.choose, valid.unhit, List.filter_filter]
    apply List.filter_congr
    intro c _
    rw [Bool.eq_iff_iff]
    simp only [Bool.and_eq_true, Bool.not_eq_true', ← Bool.not_eq_true, hits_iff,
      List.contains_iff_mem, List.mem_cons]
    grind
  cost := by simp [Marks.choose, valid.cost, add_comm]

/-- Choosing a member of a core that is not hit leaves fewer such cores. -/
theorem length_unhit_choose {core : List Nat} {v : Nat} (unhit : core ∈ m.unhit)
    (mem : v ∈ core) : (m.choose v).unhit.length < m.unhit.length := by
  refine List.length_filter_lt_length_iff_exists.mpr ⟨core, unhit, ?_⟩
  simp [mem]

theorem node_dead (h : m.node = .dead) : ∃ core ∈ m.unhit, m.openIn core = [] := by
  rw [Marks.node] at h
  split at h
  · rename_i found
    simpa using found
  · split at h <;> cases h

theorem node_covered (h : m.node = .covered) : m.unhit = [] := by
  rw [Marks.node] at h
  split at h
  · cases h
  · split at h
    · rename_i none_
      simpa using eq_nil_of_minOn?_eq_none none_
    · cases h

theorem node_branch {vs : List Nat} (h : m.node = .branch vs) :
    ∃ core ∈ m.unhit, m.openIn core = vs := by
  rw [Marks.node] at h
  split at h
  · cases h
  · split at h
    · cases h
    · rename_i found
      cases h
      simpa using List.minOn?_mem found

end Markings

/-- The greedy set grows by members that the set so far does not have. -/
theorem greedy_spec (weight : Nat → Weight) {cores : List (List Nat)}
    (nonempty : ∀ core ∈ cores, core ≠ []) {set : List Nat} (distinct : set.Nodup) :
    (greedy weight cores set).Nodup ∧ (∀ v ∈ set, v ∈ greedy weight cores set) ∧
      (∀ v ∈ greedy weight cores set, v ∈ set ∨ ∃ core ∈ cores, v ∈ core) ∧
      ∀ core ∈ cores, hits (greedy weight cores set) core = true := by
  induction cores generalizing set with
  | nil => exact ⟨distinct, fun _ h => h, fun _ h => Or.inl h, nofun⟩
  | cons core rest ih =>
    have nonemptyRest : ∀ c ∈ rest, c ≠ [] := fun c mem => nonempty c (by simp [mem])
    rw [greedy]
    split
    · rename_i hit
      obtain ⟨distinct', keeps, origin, covers⟩ := ih nonemptyRest distinct
      refine ⟨distinct', keeps, fun v mem => ?_, fun c mem => ?_⟩
      · exact (origin v mem).imp_right fun ⟨c, hc, hv⟩ => ⟨c, by simp [hc], hv⟩
      · rcases List.mem_cons.mp mem with same | mem
        · obtain ⟨v, inCore, inSet⟩ := hits_iff.mp hit
          exact hits_iff.mpr ⟨v, same ▸ inCore, keeps v inSet⟩
        · exact covers c mem
    · rename_i missed
      split
      · rename_i v cheapest
        have inCore : v ∈ core := List.minOn?_mem cheapest
        have fresh : v ∉ set := fun mem => missed (hits_iff.mpr ⟨v, inCore, mem⟩)
        obtain ⟨distinct', keeps, origin, covers⟩ :=
          ih nonemptyRest (List.nodup_cons.mpr ⟨fresh, distinct⟩)
        refine ⟨distinct', fun u mem => keeps u (by simp [mem]), fun u mem => ?_, fun c mem => ?_⟩
        · rcases origin u mem with mem | ⟨c, hc, hu⟩
          · rcases List.mem_cons.mp mem with same | mem
            · exact Or.inr ⟨core, by simp, same ▸ inCore⟩
            · exact Or.inl mem
          · exact Or.inr ⟨c, by simp [hc], hu⟩
        · rcases List.mem_cons.mp mem with same | mem
          · exact hits_iff.mpr ⟨v, same ▸ inCore, keeps v (by simp)⟩
          · exact covers c mem
      · rename_i none_
        exact absurd (eq_nil_of_minOn?_eq_none none_) (nonempty core (by simp))

section Explore

variable {weight : Nat → Weight} {cores : List (List Nat)}

theorem siblings_valid {child : Marks → Weight → Best → Best}
    (step : ∀ m cost best, m.Valid weight cores cost → best.Valid weight cores →
      (child m cost best).Valid weight cores)
    {vs : List Nat} {m : Marks} {cost : Weight} {best : Best}
    (valid : m.Valid weight cores cost) (found : best.Valid weight cores)
    {core : List Nat} (unhit : core ∈ m.unhit) (candidates : ∀ v ∈ vs, v ∈ core) :
    (siblings child weight cost vs m best).Valid weight cores := by
  induction vs generalizing m best with
  | nil => exact found
  | cons v vs ih =>
    have chosen := valid.choose unhit (candidates v (by simp))
    exact ih (valid.forbid v) (step _ _ _ chosen found) unhit
      fun u mem => candidates u (by simp [mem])

theorem explore_valid (depth : Nat) {m : Marks} {cost : Weight} {best : Best}
    (valid : m.Valid weight cores cost) (found : best.Valid weight cores) :
    (explore weight depth m cost best).Valid weight cores := by
  induction depth generalizing m cost best with
  | zero => exact found
  | succ depth ih =>
    rw [explore]
    split
    · exact found
    · rename_i covered
      split
      · refine ⟨valid.distinct, valid.members, fun core mem => ?_, valid.cost⟩
        have none_ := valid.unhit.symm.trans (node_covered covered)
        simpa using List.filter_eq_nil_iff.mp none_ core mem
      · exact found
    · rename_i vs branch
      obtain ⟨core, unhit, rfl⟩ := node_branch branch
      split
      · exact found
      · refine siblings_valid (fun m cost best valid found => ih valid found) valid found unhit ?_
        intro v mem
        exact (mem_openIn.mp (List.mem_mergeSort.mp mem)).1

theorem siblings_cost_le {child : Marks → Weight → Best → Best}
    (step : ∀ m cost best, (child m cost best).cost ≤ best.cost)
    (vs : List Nat) (m : Marks) (cost : Weight) (best : Best) :
    (siblings child weight cost vs m best).cost ≤ best.cost := by
  induction vs generalizing m best with
  | nil => exact le_refl _
  | cons v vs ih => exact (ih _ _).trans (step _ _ _)

/-- The best set only ever gets cheaper. -/
theorem explore_cost_le (depth : Nat) (m : Marks) (cost : Weight) (best : Best) :
    (explore weight depth m cost best).cost ≤ best.cost := by
  induction depth generalizing m cost best with
  | zero => exact le_refl _
  | succ depth ih =>
    rw [explore]
    split
    · exact le_refl _
    · split
      · rename_i cheaper
        exact le_of_lt cheaper
      · exact le_refl _
    · dsimp only
      split
      · exact le_refl _
      · exact siblings_cost_le ih _ _ _ _

theorem Completes.choose {m : Marks} {set : Finset Nat} (completes : Completes m set) (v : Nat) :
    Completes (m.choose v) (set.erase v) where
  allowed u mem := completes.allowed u (Finset.mem_of_mem_erase mem)
  covers core mem := by
    obtain ⟨unhit, without⟩ := List.mem_filter.mp mem
    obtain ⟨u, inCore, inSet⟩ := completes.covers core unhit
    have ne : u ≠ v := by
      intro same
      subst same
      simp [inCore] at without
    exact ⟨u, inCore, Finset.mem_erase.mpr ⟨ne, inSet⟩⟩

theorem Completes.forbid {m : Marks} {set : Finset Nat} (completes : Completes m set) {v : Nat}
    (outside : v ∉ set) : Completes (m.forbid v) set where
  allowed u mem := by
    intro h
    rcases List.mem_cons.mp h with same | h
    · exact outside (same ▸ mem)
    · exact completes.allowed u mem h
  covers := completes.covers

/-- A completion that contains some candidate goes to the branch of the first one it
contains: the candidates forbidden there are not in it. -/
theorem siblings_least {child : Marks → Weight → Best → Best} {bound : Nat}
    (shrink : ∀ m cost best, (child m cost best).cost ≤ best.cost)
    (step : ∀ m cost best set, m.unhit.length < bound → Completes m set →
      (child m cost best).cost ≤ cost + ∑ v ∈ set, weight v)
    {vs : List Nat} {m : Marks} {cost : Weight} {best : Best} {set : Finset Nat}
    (completes : Completes m set) (small : m.unhit.length ≤ bound) {core : List Nat}
    (unhit : core ∈ m.unhit) (candidates : ∀ v ∈ vs, v ∈ core) {v : Nat} (mem : v ∈ vs)
    (inSet : v ∈ set) :
    (siblings child weight cost vs m best).cost ≤ cost + ∑ v ∈ set, weight v := by
  induction vs generalizing m best with
  | nil => cases mem
  | cons u vs ih =>
    rw [siblings]
    by_cases first : u ∈ set
    · have fewer := length_unhit_choose unhit (candidates u (by simp))
      calc (siblings child weight cost vs (m.forbid u)
              (child (m.choose u) (cost + weight u) best)).cost
          ≤ (child (m.choose u) (cost + weight u) best).cost := siblings_cost_le shrink _ _ _ _
        _ ≤ cost + weight u + ∑ w ∈ set.erase u, weight w :=
            step _ _ _ _ (by omega) (completes.choose u)
        _ = cost + ∑ w ∈ set, weight w := by
            rw [add_assoc, Finset.add_sum_erase set weight first]
    · have later : v ∈ vs := by
        rcases List.mem_cons.mp mem with same | mem
        · exact absurd (same ▸ inSet) first
        · exact mem
      exact ih (completes.forbid first) small unhit (fun w h => candidates w (by simp [h])) later

theorem explore_least (nonneg : ∀ v, 0 ≤ weight v) (depth : Nat) {m : Marks} {cost : Weight}
    {best : Best} {set : Finset Nat} (deep : m.unhit.length < depth)
    (completes : Completes m set) :
    (explore weight depth m cost best).cost ≤ cost + ∑ v ∈ set, weight v := by
  induction depth generalizing m cost best set with
  | zero => omega
  | succ depth ih =>
    have pays : 0 ≤ ∑ v ∈ set, weight v := Finset.sum_nonneg fun v _ => nonneg v
    rw [explore]
    split
    · rename_i dead
      -- a completion hits the core that has no open member
      obtain ⟨core, unhit, closed⟩ := node_dead dead
      obtain ⟨v, inCore, inSet⟩ := completes.covers core unhit
      have := mem_openIn.mpr ⟨inCore, completes.allowed v inSet⟩
      rw [closed] at this
      cases this
    · split
      · exact le_add_of_nonneg_right pays
      · rename_i notCheaper
        exact (not_lt.mp notCheaper).trans (le_add_of_nonneg_right pays)
    · rename_i vs branch
      obtain ⟨core, unhit, rfl⟩ := node_branch branch
      dsimp only
      split
      · rename_i pruned
        have bound := lowerBound_le_completion (fun v _ => nonneg v) completes
        linarith
      · obtain ⟨v, inCore, inSet⟩ := completes.covers core unhit
        refine siblings_least (explore_cost_le depth) (fun m cost best set small h => ih small h)
          completes (by omega) unhit ?_ ?_ inSet
        · intro u mem
          exact (mem_openIn.mp (List.mem_mergeSort.mp mem)).1
        · exact List.mem_mergeSort.mpr (mem_openIn.mpr ⟨inCore, completes.allowed v inSet⟩)

end Explore

/-- The best set that the search ends with, of which the answer is the ascending order. -/
theorem minimum_spec (weight : Nat → Weight) {cores : List (List Nat)}
    (nonempty : ∀ core ∈ cores, core ≠ []) :
    ∃ best : Best, minimum weight cores = (best.set.mergeSort fun a b => a ≤ b) ∧
      best.Valid weight cores ∧
      ((∀ v, 0 ≤ weight v) → ∀ set : Finset Nat, (∀ core ∈ cores, ∃ v ∈ core, v ∈ set) →
        best.cost ≤ ∑ v ∈ set, weight v) := by
  obtain ⟨distinct, -, origin, covers⟩ := greedy_spec weight nonempty List.nodup_nil
  have start : Marks.Valid weight cores { unhit := cores } 0 := by
    refine ⟨.nil, nofun, ?_, rfl⟩
    exact (List.filter_eq_self.mpr fun core _ => by simp [hits]).symm
  refine ⟨_, rfl, explore_valid _ start ⟨distinct, ?_, covers, rfl⟩, ?_⟩
  · intro v mem
    exact (origin v mem).resolve_left nofun
  · intro nonneg set hitting
    have completes : Completes { unhit := cores } set := ⟨nofun, hitting⟩
    refine le_of_le_of_eq ?_ (zero_add _)
    exact explore_least nonneg (cores.length + 1) (Nat.lt_succ_self _) completes

section Answer

variable {weight : Nat → Weight} {cores : List (List Nat)} (nonempty : ∀ core ∈ cores, core ≠ [])
include nonempty

theorem minimum_ascending : (minimum weight cores).Pairwise (· < ·) := by
  obtain ⟨best, eq, valid, -⟩ := minimum_spec weight nonempty
  rw [eq]
  exact ascending_mergeSort valid.distinct

theorem minimum_members {v : Nat} (mem : v ∈ minimum weight cores) : ∃ core ∈ cores, v ∈ core := by
  obtain ⟨best, eq, valid, -⟩ := minimum_spec weight nonempty
  rw [eq] at mem
  exact valid.members v (List.mem_mergeSort.mp mem)

theorem minimum_hits {core : List Nat} (mem : core ∈ cores) :
    ∃ v ∈ core, v ∈ minimum weight cores := by
  obtain ⟨best, eq, valid, -⟩ := minimum_spec weight nonempty
  obtain ⟨v, inCore, inSet⟩ := hits_iff.mp (valid.covers core mem)
  rw [eq]
  exact ⟨v, inCore, List.mem_mergeSort.mpr inSet⟩

theorem minimum_least (nonneg : ∀ v, 0 ≤ weight v) {set : Finset Nat}
    (hitting : ∀ core ∈ cores, ∃ v ∈ core, v ∈ set) :
    ((minimum weight cores).map weight).sum ≤ ∑ v ∈ set, weight v := by
  obtain ⟨best, eq, valid, least⟩ := minimum_spec weight nonempty
  rw [eq, ((List.mergeSort_perm best.set _).map weight).sum_eq, ← Weight.total_eq_sum, ← valid.cost]
  exact least nonneg set hitting

end Answer

end MaxSat.HittingSet

import Mathlib
import MaxSat.HittingSet.Hitter
import MaxSat.Proofs.HittingSet.Minimum

/-!
# What a hitter answers

All that a hitter's answers depend on is the list of cores recorded in it:
`Records` relates the two. A kept answer is the one that would be computed, since
recording a core drops it and asking changes nothing else. The weight of a
variable is that of the first recorded core that names it.
-/

namespace MaxSat

namespace Core

theorem mem_of_mem_dropRepeats {ms : List (Nat × Weight)} {m : Nat × Weight}
    (mem : m ∈ dropRepeats ms) : m ∈ ms := by
  induction ms with
  | nil => cases mem
  | cons a rest ih =>
    rcases List.mem_cons.mp mem with same | mem
    · exact same ▸ List.mem_cons_self
    · exact List.mem_cons_of_mem a (ih ((List.dropWhile_sublist _).mem mem))

theorem mem_of_mem_ofMembers {ms : List (Nat × Weight)} {m : Nat × Weight}
    (mem : m ∈ (ofMembers ms).members) : m ∈ ms :=
  List.mem_mergeSort.mp (mem_of_mem_dropRepeats mem)

/-- A member that is dropped names the variable of one that stays. -/
theorem exists_mem_dropRepeats {ms : List (Nat × Weight)} {m : Nat × Weight} (mem : m ∈ ms) :
    ∃ k ∈ dropRepeats ms, k.1 = m.1 := by
  induction ms with
  | nil => cases mem
  | cons a rest ih =>
    rw [dropRepeats]
    rcases List.mem_cons.mp mem with same | mem
    · exact ⟨a, List.mem_cons_self, by rw [same]⟩
    · obtain ⟨k, hk, var⟩ := ih mem
      rw [← List.takeWhile_append_dropWhile (p := fun b => b.1 == a.1)
        (l := dropRepeats rest)] at hk
      rcases List.mem_append.mp hk with dropped | kept
      · have same : k.1 = a.1 := by
          simpa using List.all_eq_true.mp List.all_takeWhile k dropped
        exact ⟨a, List.mem_cons_self, same.symm.trans var⟩
      · exact ⟨k, List.mem_cons_of_mem a kept, var⟩

theorem mem_vars_ofMembers {ms : List (Nat × Weight)} {v : Nat} :
    v ∈ (ofMembers ms).vars ↔ ∃ m ∈ ms, m.1 = v := by
  constructor
  · intro mem
    obtain ⟨m, hm, var⟩ := List.mem_map.mp mem
    exact ⟨m, mem_of_mem_ofMembers hm, var⟩
  · rintro ⟨m, hm, var⟩
    have sorted : (m ∈ ms.mergeSort fun a b => a.1 ≤ b.1) := List.mem_mergeSort.mpr hm
    obtain ⟨k, hk, same⟩ := exists_mem_dropRepeats sorted
    exact List.mem_map.mpr ⟨k, hk, same.trans var⟩

theorem members_eq_nil_iff {c : Core} : c.members = [] ↔ c.vars = [] := by
  simp [vars]

end Core

/-- The weight of a variable in the first of the cores that names it. -/
def Core.firstWeight? (cs : List Core) (v : Nat) : Option Weight :=
  cs.findSome? fun c => c.members.lookup v

theorem Core.firstWeight?_isSome {cs : List Core} {c : Core} {v : Nat} (mem : c ∈ cs)
    (named : v ∈ c.vars) : ∃ w, Core.firstWeight? cs v = some w := by
  refine Option.isSome_iff_exists.mp (List.findSome?_isSome_iff.mpr ⟨c, mem, ?_⟩)
  obtain ⟨m, hm, var⟩ := List.mem_map.mp named
  exact List.lookup_isSome_iff.mpr ⟨m, hm, by simp [var]⟩

theorem Core.mem_of_firstWeight? {cs : List Core} {v : Nat} {w : Weight}
    (found : Core.firstWeight? cs v = some w) : ∃ c ∈ cs, (v, w) ∈ c.members := by
  obtain ⟨c, mem, weight⟩ := List.exists_of_findSome?_eq_some found
  obtain ⟨before, after, eq, _⟩ := List.lookup_eq_some_iff.mp weight
  exact ⟨c, mem, by simp [eq]⟩

theorem Core.firstWeight?_append (cs ds : List Core) (v : Nat) :
    Core.firstWeight? (cs ++ ds) v = (Core.firstWeight? cs v).or (Core.firstWeight? ds v) :=
  List.findSome?_append

namespace Hitter

theorem lookup_mention (ws : List (Nat × Weight)) (m : Nat × Weight) (v : Nat) :
    (mention ws m).lookup v = (ws.lookup v).or ([m].lookup v) := by
  obtain ⟨u, w⟩ := m
  rw [mention]
  split
  · rename_i known
    cases found : ws.lookup v with
    | some x => rfl
    | none =>
      have ne : v ≠ u := by
        intro same
        subst same
        simp [found] at known
      simp [List.lookup_cons, beq_false_of_ne ne]
  · rw [List.lookup_append]

theorem lookup_foldl_mention (ms ws : List (Nat × Weight)) (v : Nat) :
    (ms.foldl mention ws).lookup v = (ws.lookup v).or (ms.lookup v) := by
  induction ms generalizing ws with
  | nil => simp
  | cons m ms ih =>
    rw [List.foldl_cons, ih, lookup_mention, Option.or_assoc, ← List.lookup_append]
    rfl

/-- The hitter holds the given cores, in that order, and a kept answer is up to date. -/
structure Records (h : Hitter) (cs : List Core) : Prop where
  cores : h.cores = cs.map Core.vars
  weight? : ∀ v, h.weight? v = Core.firstWeight? cs v
  nonempty : ∀ c ∈ cs, c.vars ≠ []
  last : ∀ set, h.last = some set → set = HittingSet.minimum h.weight h.cores

theorem records_nil : Records {} [] := ⟨rfl, fun _ => rfl, nofun, nofun⟩

theorem hit_of_empty {h : Hitter} {c : Core} (empty : c.vars = []) : h.hit c = h := by
  simp [hit, Core.members_eq_nil_iff.mpr empty]

theorem Records.hit {h : Hitter} {cs : List Core} (records : h.Records cs) {c : Core}
    (nonempty : c.vars ≠ []) : (h.hit c).Records (cs ++ [c]) := by
  have members : c.members.isEmpty = false := by
    simpa using fun empty => nonempty (Core.members_eq_nil_iff.mp empty)
  refine ⟨?_, fun v => ?_, fun d mem => ?_, fun set kept => ?_⟩
  · simp [Hitter.hit, members, records.cores]
  · have before : h.weights.lookup v = Core.firstWeight? cs v := records.weight? v
    simp only [Hitter.weight?, Hitter.hit, members, Bool.false_eq_true, if_false,
      lookup_foldl_mention, before]
    simp [Core.firstWeight?, List.findSome?_append]
  · rcases List.mem_append.mp mem with mem | mem
    · exact records.nonempty d mem
    · exact List.mem_singleton.mp mem ▸ nonempty
  · simp [Hitter.hit, members] at kept

section Answers

variable {h : Hitter} {cs : List Core} (records : h.Records cs)
include records

theorem Records.weight (v : Nat) : h.weight v = (Core.firstWeight? cs v).getD 0 := by
  rw [Hitter.weight, records.weight? v]

/-- Kept or computed, an answer is the minimum for the recorded cores. -/
theorem Records.ask_eq :
    h.ask.1 = HittingSet.minimum (fun v => (Core.firstWeight? cs v).getD 0)
      (cs.map Core.vars) := by
  have computed : h.ask.1 = HittingSet.minimum h.weight h.cores := by
    rw [ask]
    split
    · rename_i set kept
      exact records.last set kept
    · rfl
  rw [computed, records.cores]
  exact congrArg (HittingSet.minimum · _) (funext records.weight)

theorem Records.ask : h.ask.2.Records cs := by
  rw [Hitter.ask]
  split
  · exact records
  · refine ⟨records.cores, records.weight?, records.nonempty, fun set kept => ?_⟩
    simp only [Option.some.injEq] at kept
    exact kept.symm

theorem Records.nonempty_cores : ∀ core ∈ cs.map Core.vars, core ≠ [] := by
  intro core mem
  obtain ⟨c, hc, same⟩ := List.mem_map.mp mem
  exact same ▸ records.nonempty c hc

theorem Records.ask_ascending : h.ask.1.Pairwise (· < ·) := by
  rw [records.ask_eq]
  exact HittingSet.minimum_ascending records.nonempty_cores

theorem Records.ask_members {v : Nat} (mem : v ∈ h.ask.1) : ∃ c ∈ cs, v ∈ c.vars := by
  rw [records.ask_eq] at mem
  simpa using HittingSet.minimum_members records.nonempty_cores mem

theorem Records.ask_hits {c : Core} (mem : c ∈ cs) : ∃ v ∈ c.vars, v ∈ h.ask.1 := by
  rw [records.ask_eq]
  exact HittingSet.minimum_hits records.nonempty_cores (List.mem_map_of_mem mem)

end Answers

/-- Variables without a weight add nothing to a cost. -/
theorem costOf_eq_sum (h : Hitter) (set : List Nat) :
    h.costOf set = (set.map h.weight).sum := by
  rw [costOf, Weight.total_eq_sum]
  induction set with
  | nil => rfl
  | cons v set ih =>
    cases found : h.weight? v with
    | none => simp [found, weight, ih]
    | some w => simp [found, weight, ih]

theorem weight_nonneg {h : Hitter} (nonneg : ∀ v w, h.weight? v = some w → 0 ≤ w) (v : Nat) :
    0 ≤ h.weight v := by
  rw [weight]
  cases found : h.weight? v with
  | none => exact le_refl 0
  | some w => exact nonneg v w found

theorem Records.ask_least {h : Hitter} {cs : List Core} (records : h.Records cs)
    (nonneg : ∀ v w, h.weight? v = some w → 0 ≤ w) {set : Finset Nat}
    (hitting : ∀ c ∈ cs, ∃ v ∈ c.vars, v ∈ set) :
    h.costOf h.ask.1 ≤ ∑ v ∈ set, h.weight v := by
  rw [costOf_eq_sum, records.ask_eq, funext records.weight]
  refine HittingSet.minimum_least records.nonempty_cores ?_ ?_
  · intro v
    rw [← records.weight v]
    exact weight_nonneg nonneg v
  · intro core mem
    obtain ⟨c, hc, same⟩ := List.mem_map.mp mem
    exact same ▸ hitting c hc

/-- Naming a variable more than once only adds to the cost of a list. -/
theorem sum_le_costOf {h : Hitter} (nonneg : ∀ v w, h.weight? v = some w → 0 ≤ w)
    (set : List Nat) : ∑ v ∈ set.toFinset, h.weight v ≤ h.costOf set := by
  have same : set.dedup.toFinset = set.toFinset := by
    ext v
    simp
  rw [← same, List.sum_toFinset h.weight set.nodup_dedup, costOf_eq_sum]
  refine (set.dedup_sublist.map h.weight).sum_le_sum fun w mem => ?_
  obtain ⟨v, -, same⟩ := List.mem_map.mp mem
  exact same ▸ weight_nonneg nonneg v

/-- Asking again changes nothing. -/
theorem ask_ask (h : Hitter) : h.ask.2.ask.1 = h.ask.1 := by
  cases kept : h.last <;> simp [ask, kept]

theorem costOf_ask (h : Hitter) (set : List Nat) : h.ask.2.costOf set = h.costOf set := by
  rw [ask]
  split
  · rfl
  · rfl

section Records

variable {h : Hitter} {cs : List Core} (records : h.Records cs)
include records

theorem Records.weight?_nonneg (nonneg : ∀ c ∈ cs, ∀ m ∈ c.members, 0 ≤ m.2) :
    ∀ v w, h.weight? v = some w → 0 ≤ w := by
  intro v w known
  rw [records.weight? v] at known
  obtain ⟨c, mem, member⟩ := Core.mem_of_firstWeight? known
  exact nonneg c mem _ member

theorem Records.costOf_ask_eq : h.costOf h.ask.1 = ∑ v ∈ h.ask.1.toFinset, h.weight v := by
  have distinct : h.ask.1.Nodup := records.ask_ascending.imp fun lt => Nat.ne_of_lt lt
  rw [costOf_eq_sum, List.sum_toFinset h.weight distinct]

/-- One more core does not make the hitting set cheaper. -/
theorem Records.costOf_ask_le_hit {c : Core} (nonempty : c.vars ≠ [])
    (nonneg : ∀ d ∈ cs ++ [c], ∀ m ∈ d.members, 0 ≤ m.2) :
    h.costOf h.ask.1 ≤ (h.hit c).costOf (h.hit c).ask.1 := by
  have records' := records.hit nonempty
  have before := records.weight?_nonneg fun d mem => nonneg d (List.mem_append_left _ mem)
  have after := records'.weight?_nonneg nonneg
  have hitting : ∀ d ∈ cs, ∃ v ∈ d.vars, v ∈ (h.hit c).ask.1.toFinset := by
    intro d mem
    obtain ⟨v, named, inSet⟩ := records'.ask_hits (List.mem_append_left [c] mem)
    exact ⟨v, named, List.mem_toFinset.mpr inSet⟩
  refine (records.ask_least before hitting).trans ?_
  rw [records'.costOf_ask_eq]
  refine Finset.sum_le_sum fun v _ => ?_
  rw [records.weight v, records'.weight v]
  cases known : Core.firstWeight? cs v with
  | none =>
    have later := weight_nonneg after v
    rwa [records'.weight v] at later
  | some w => simp [Core.firstWeight?_append, known]

end Records

/-- One call: record the core of the given members, or ask for a hitting set. -/
inductive Call where
  | hit (members : List (Nat × Weight))
  | get

namespace Call

def isHit : Call → Bool
  | hit _ => true
  | get => false

/-- The core that a call records; an empty one is not recorded. -/
def core? : Call → Option Core
  | hit ms => if ms.isEmpty then none else some (Core.ofMembers ms)
  | get => none

end Call

def call (h : Hitter) : Call → Hitter
  | .hit ms => h.hit (Core.ofMembers ms)
  | .get => h.ask.2

/-- A fresh hitter after a sequence of calls. -/
def after (calls : List Call) : Hitter := calls.foldl call {}

def recorded (calls : List Call) : List Core := calls.filterMap Call.core?

theorem Records.call {h : Hitter} {cs : List Core} (records : h.Records cs) (c : Call) :
    (h.call c).Records (cs ++ c.core?.toList) := by
  cases c with
  | get => simpa [Hitter.call, Call.core?] using records.ask
  | hit ms =>
    cases ms with
    | nil =>
      have empty : (Core.ofMembers []).vars = [] := by
        simp [Core.vars, Core.ofMembers, Core.dropRepeats]
      simpa [Hitter.call, Call.core?, hit_of_empty empty] using records
    | cons m ms =>
      have named : m.1 ∈ (Core.ofMembers (m :: ms)).vars :=
        Core.mem_vars_ofMembers.mpr ⟨m, List.mem_cons_self, rfl⟩
      simpa [Hitter.call, Call.core?] using records.hit (List.ne_nil_of_mem named)

theorem Records.foldl_call {h : Hitter} {cs : List Core} (records : h.Records cs)
    (calls : List Call) : (calls.foldl Hitter.call h).Records (cs ++ recorded calls) := by
  induction calls generalizing h cs with
  | nil => simpa [recorded] using records
  | cons c calls ih =>
    have tail := ih (records.call c)
    cases found : c.core? <;> simpa [recorded, found] using tail

theorem records_after (calls : List Call) : (after calls).Records (recorded calls) := by
  simpa [after] using records_nil.foldl_call calls

theorem recorded_filter_isHit (calls : List Call) :
    recorded (calls.filter Call.isHit) = recorded calls := by
  rw [recorded, recorded, List.filterMap_filter]
  apply List.filterMap_congr
  intro c _
  cases c <;> simp [Call.isHit, Call.core?]

/-- After any calls the answer is an ascending list of members that meets every recorded
core. It is the same whatever else was asked before, and if no recorded weight is negative,
no list of variables that meets every recorded core costs less. -/
theorem ask_is_minimum (calls : List Call) :
    let h := after calls
    let cores := recorded calls
    h.ask.1.Pairwise (· < ·) ∧ (∀ v ∈ h.ask.1, ∃ c ∈ cores, v ∈ c.vars) ∧
      (∀ c ∈ cores, ∃ v ∈ c.vars, v ∈ h.ask.1) ∧
      (∀ others : List Call, others.filter Call.isHit = calls.filter Call.isHit →
        (after others).ask.1 = h.ask.1) ∧
      (∀ v, h.weight? v = Core.firstWeight? cores v) ∧
      ((∀ v w, h.weight? v = some w → 0 ≤ w) →
        ∀ set : List Nat, (∀ c ∈ cores, ∃ v ∈ c.vars, v ∈ set) →
          h.costOf h.ask.1 ≤ h.costOf set) := by
  intro h cores
  have records : h.Records cores := records_after calls
  refine ⟨records.ask_ascending, fun v => records.ask_members, fun c => records.ask_hits, ?_,
    records.weight?, ?_⟩
  · intro others same
    have hits : recorded others = cores := by
      rw [← recorded_filter_isHit others, same, recorded_filter_isHit]
    rw [(records_after others).ask_eq, records.ask_eq, hits]
  · intro nonneg set hitting
    exact (records.ask_least nonneg (by simpa using hitting)).trans (sum_le_costOf nonneg set)

/-- The third core makes the shared variable the cheapest choice. The weight that it states
for it and the empty core count for nothing, nor do the answers in between. -/
theorem ask_is_minimum_shared_variable :
    let calls : List Call := [.hit [(1, 3), (2, 5)], .get, .hit [(3, 1), (2, 5)], .get, .hit [],
      .hit [(4, 2), (2, 7)], .get]
    (after calls).ask.1 = [2] ∧ (after calls).costOf [2] = 5 ∧
      ∀ set : List Nat, (∀ c ∈ recorded calls, ∃ v ∈ c.vars, v ∈ set) →
        (after calls).costOf [2] ≤ (after calls).costOf set := by
  intro calls
  have answer : (after calls).ask.1 = [2] := by cbv
  have cost : (after calls).costOf [2] = 5 := by cbv
  have weights : (after calls).weights = [(1, 3), (2, 5), (3, 1), (4, 2)] := by cbv
  have nonneg : ∀ v w, (after calls).weight? v = some w → 0 ≤ w := by
    intro v w known
    have all : ∀ m ∈ (after calls).weights, 0 ≤ m.2 := by
      rw [weights]
      decide +kernel
    obtain ⟨_, _, eq, _⟩ := List.lookup_eq_some_iff.mp known
    exact all (v, w) (by simp [eq])
  obtain ⟨_, _, _, _, _, least⟩ := ask_is_minimum calls
  have bound := least nonneg
  rw [answer] at bound
  exact ⟨answer, cost, bound⟩

end Hitter

end MaxSat

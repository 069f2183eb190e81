import MaxSat.Proofs.Basic
import MaxSat.Search

/-!
# Propagation and the valuations it keeps

A partial assignment stands for the valuations that agree with it. A status that
is decided holds for all of them. A propagation pass only adds values that every
such model of the clauses has anyway, so the models that agree with the
assignment are the same before and after. Nothing here says that propagation
finds a conflict whenever there is one.
-/

namespace MaxSat

namespace Assignment

/-- The valuation has every value that is assigned. -/
def Agrees (a : Assignment) (ν : Valuation) : Prop :=
  ∀ v b, a.value v = some b → ν v = b

/-- Every value of `a` is also one of `b`. -/
def Within (a b : Assignment) : Prop :=
  ∀ v x, a.value v = some x → b.value v = some x

theorem Within.refl (a : Assignment) : a.Within a := fun _ _ h => h

theorem Within.trans {a b c : Assignment} (hab : a.Within b) (hbc : b.Within c) :
    a.Within c := fun v x h => hbc v x (hab v x h)

theorem Within.agrees {a b : Assignment} (within : a.Within b) {ν : Valuation}
    (agrees : b.Agrees ν) : a.Agrees ν := fun v x h => agrees v x (within v x h)

@[simp] theorem size_assign (a : Assignment) (v : Nat) (b : Bool) :
    (a.assign v b).size = a.size := by
  simp [assign]

theorem value_assign_self {a : Assignment} {v : Nat} (b : Bool) (inside : v < a.size) :
    (a.assign v b).value v = some b := by
  simp [value, assign, Array.getD_eq_getD_getElem?, inside]

theorem value_assign_of_ne (a : Assignment) {u v : Nat} (b : Bool) (ne : u ≠ v) :
    (a.assign v b).value u = a.value u := by
  simp [value, assign, Array.getD_eq_getD_getElem?, Array.getElem?_setIfInBounds_ne ne.symm]

theorem lt_size_of_value {a : Assignment} {v : Nat} {b : Bool} (h : a.value v = some b) :
    v < a.size := by
  by_cases inside : v < a.size
  · exact inside
  · simp [value, Array.getD_eq_getD_getElem?, Array.getElem?_eq_none (Nat.le_of_not_lt inside)] at h

theorem agrees_assign {a : Assignment} {ν : Valuation} {v : Nat} {b : Bool}
    (agrees : a.Agrees ν) (same : ν v = b) : (a.assign v b).Agrees ν := by
  intro u x h
  by_cases hu : u = v
  · subst hu
    have inside := lt_size_of_value h
    rw [size_assign] at inside
    rw [value_assign_self b inside] at h
    cases h
    exact same
  · exact agrees u x (by rwa [value_assign_of_ne a b hu] at h)

theorem within_assign {a : Assignment} {v : Nat} (b : Bool) (free : a.value v = none) :
    a.Within (a.assign v b) := by
  intro u x h
  have ne : u ≠ v := by
    intro hu
    subst hu
    rw [free] at h
    cases h
  rwa [value_assign_of_ne a b ne]

theorem agrees_assign_iff {a : Assignment} {ν : Valuation} {v : Nat} {b : Bool}
    (inside : v < a.size) (free : a.value v = none) :
    (a.assign v b).Agrees ν ↔ a.Agrees ν ∧ ν v = b := by
  constructor
  · intro agrees
    exact ⟨(within_assign b free).agrees agrees, agrees v b (value_assign_self b inside)⟩
  · rintro ⟨agrees, same⟩
    exact agrees_assign agrees same

theorem valuation_complete (a : Assignment) (v : Nat) :
    valuation a.complete v = (a.value v).getD false := by
  by_cases inside : v < a.size
  · simp [valuation, complete, value, Array.getD_eq_getD_getElem?, inside]
  · have past := Nat.le_of_not_lt inside
    simp [valuation, complete, value, Array.getD_eq_getD_getElem?, past]

/-- The stored model is one of the valuations that agree. -/
theorem agrees_complete (a : Assignment) : a.Agrees (valuation a.complete) := by
  intro v b h
  rw [valuation_complete, h]
  rfl

end Assignment

theorem Lit.holds_of_status {a : Assignment} {ν : Valuation} (agrees : a.Agrees ν) {l : Lit}
    {b : Bool} (status : l.status a = some b) : l.holds ν = b := by
  obtain ⟨x, value, same⟩ := Option.map_eq_some_iff.mp status
  rw [Lit.holds, agrees l.var x value, same]

theorem Lit.status_eq_none_iff {a : Assignment} {l : Lit} :
    l.status a = none ↔ a.value l.var = none := by
  simp [Lit.status]

/-- A literal that is true under the assignment decides the clause. -/
theorem Clause.holds_of_true {a : Assignment} {ν : Valuation} (agrees : a.Agrees ν) {c : Clause}
    {l : Lit} (mem : l ∈ c) (status : l.status a = some true) : Clause.holds ν c = true :=
  Clause.holds_iff.mpr ⟨l, mem, Lit.holds_of_status agrees status⟩

/-- In a clause without true literals only undecided ones can hold. -/
theorem Clause.open_of_holds {a : Assignment} {ν : Valuation} (agrees : a.Agrees ν) {c : Clause}
    (noTrue : ∀ l ∈ c, l.status a ≠ some true) (holds : Clause.holds ν c = true) :
    ∃ l ∈ c, l.status a = none ∧ l.holds ν = true := by
  obtain ⟨l, mem, hl⟩ := Clause.holds_iff.mp holds
  refine ⟨l, mem, ?_, hl⟩
  cases status : l.status a with
  | none => rfl
  | some b =>
    have hb := Lit.holds_of_status agrees status
    rw [hl] at hb
    exact absurd (hb ▸ status) (noTrue l mem)

theorem Clause.holds_of_status {a : Assignment} {ν : Valuation} (agrees : a.Agrees ν) {c : Clause}
    {b : Bool} (status : Clause.status a c = some b) : Clause.holds ν c = b := by
  rw [Clause.status] at status
  split at status
  · rename_i found
    obtain ⟨l, mem, hl⟩ := List.any_eq_true.mp found
    cases status
    exact Clause.holds_of_true agrees mem (by simpa using hl)
  · rename_i noTrue
    split at status
    · cases status
    · rename_i noOpen
      cases status
      apply Bool.eq_false_iff.mpr
      intro holds
      obtain ⟨l, mem, free, _⟩ := Clause.open_of_holds agrees (by simpa using noTrue) holds
      exact noOpen (List.any_eq_true.mpr ⟨l, mem, by simp [free]⟩)

theorem Clause.open_of_status {a : Assignment} {c : Clause} (status : Clause.status a c = none) :
    ∃ l ∈ c, a.value l.var = none := by
  rw [Clause.status] at status
  split at status
  · cases status
  · split at status
    · rename_i found
      obtain ⟨l, mem, hl⟩ := List.any_eq_true.mp found
      exact ⟨l, mem, Lit.status_eq_none_iff.mp (by simpa using hl)⟩
    · cases status

theorem Cnf.holds_iff {ν : Valuation} {f : Cnf} :
    f.holds ν = true ↔ ∀ c ∈ f.clauses, Clause.holds ν c = true := by
  simp [Cnf.holds]

/-- A decided store has the same truth in every valuation that agrees. -/
theorem Cnf.holds_of_status {a : Assignment} {ν : Valuation} (agrees : a.Agrees ν) {f : Cnf}
    {b : Bool} (status : f.status a = some b) : f.holds ν = b := by
  rw [Cnf.status] at status
  split at status
  · rename_i found
    obtain ⟨c, mem, hc⟩ := List.any_eq_true.mp found
    cases status
    have false_ : Clause.holds ν c = false := Clause.holds_of_status agrees (by simpa using hc)
    apply Bool.eq_false_iff.mpr
    intro holds
    exact absurd (Cnf.holds_iff.mp holds c mem) (by simp [false_])
  · split at status
    · rename_i all
      cases status
      apply Cnf.holds_iff.mpr
      intro c mem
      exact Clause.holds_of_status agrees (by simpa using List.all_eq_true.mp all c mem)
    · cases status

theorem Cnf.open_of_status {a : Assignment} {f : Cnf} (status : f.status a = none) :
    ∃ c ∈ f.clauses, ∃ l ∈ c, a.value l.var = none := by
  rw [Cnf.status] at status
  split at status
  · cases status
  · rename_i noFalse
    split at status
    · cases status
    · rename_i notAll
      obtain ⟨c, mem, notTrue⟩ : ∃ c ∈ f.clauses, ¬ Clause.status a c = some true := by
        simpa using notAll
      refine ⟨c, mem, Clause.open_of_status ?_⟩
      cases hs : Clause.status a c with
      | none => rfl
      | some b =>
        cases b with
        | true => exact absurd hs notTrue
        | false => exact absurd (List.any_eq_true.mpr ⟨c, mem, by simp [hs]⟩) noFalse

namespace Search

/-- What one clause or one pass may do to the assignment, for the clauses it has looked at:
nothing is taken back, nothing is added that a model of them could lack, and nothing outside
their variables is touched. -/
structure Forces (cs : List Clause) (a b : Assignment) : Prop where
  size : b.size = a.size
  within : a.Within b
  forced : ∀ ν, (∀ c ∈ cs, Clause.holds ν c = true) → a.Agrees ν → b.Agrees ν
  frame : ∀ v, (∀ c ∈ cs, ∀ l ∈ c, l.var ≠ v) → b.value v = a.value v

theorem Forces.refl (cs : List Clause) (a : Assignment) : Forces cs a a :=
  ⟨rfl, .refl a, fun _ _ h => h, fun _ _ => rfl⟩

theorem Forces.trans {cs : List Clause} {a b c : Assignment} (hab : Forces cs a b)
    (hbc : Forces cs b c) : Forces cs a c where
  size := hbc.size.trans hab.size
  within := hab.within.trans hbc.within
  forced ν hold agrees := hbc.forced ν hold (hab.forced ν hold agrees)
  frame v outside := (hbc.frame v outside).trans (hab.frame v outside)

theorem Forces.mono {cs ds : List Clause} {a b : Assignment} (sub : ∀ c ∈ cs, c ∈ ds)
    (h : Forces cs a b) : Forces ds a b where
  size := h.size
  within := h.within
  forced ν hold agrees := h.forced ν (fun c mem => hold c (sub c mem)) agrees
  frame v outside := h.frame v (fun c mem => outside c (sub c mem))

/-- The models of the clauses that agree are the same before and after. -/
theorem Forces.agrees_iff {cs : List Clause} {a b : Assignment} (h : Forces cs a b)
    {ν : Valuation} (hold : ∀ c ∈ cs, Clause.holds ν c = true) : a.Agrees ν ↔ b.Agrees ν :=
  ⟨h.forced ν hold, h.within.agrees⟩

/-- The last undecided occurrence of a clause without true literals is forced. -/
theorem forces_unit {a : Assignment} {c : Clause} {l : Lit}
    (noTrue : ∀ k ∈ c, k.status a ≠ some true)
    (unit : c.filter (fun k => (k.status a).isNone) = [l]) :
    Forces [c] a (a.assign l.var l.positive) := by
  have isOpen : ∀ k, k ∈ c ∧ k.status a = none ↔ k = l := by
    intro k
    have mem : k ∈ c.filter (fun k => (k.status a).isNone) ↔ k = l := by simp [unit]
    simpa using mem
  have mem := ((isOpen l).mpr rfl).1
  have free := Lit.status_eq_none_iff.mp ((isOpen l).mpr rfl).2
  refine ⟨Assignment.size_assign _ _ _, Assignment.within_assign _ free, ?_, ?_⟩
  · intro ν hold agrees
    obtain ⟨k, kmem, kfree, kholds⟩ := Clause.open_of_holds agrees noTrue (hold c (by simp))
    have same : k = l := (isOpen k).mp ⟨kmem, kfree⟩
    subst same
    exact Assignment.agrees_assign agrees (by simpa [Lit.holds] using kholds)
  · intro v outside
    exact Assignment.value_assign_of_ne a _ (Ne.symm (outside c (by simp) l mem))

theorem visit_some {a b : Assignment} {c : Clause} (h : visit a c = some b) : Forces [c] a b := by
  rw [visit] at h
  split at h
  · cases h
    exact .refl _ _
  · rename_i noTrue
    split at h
    · cases h
    · rename_i l unit
      cases h
      exact forces_unit (by simpa using noTrue) unit
    · cases h
      exact .refl _ _

theorem visit_none {a : Assignment} {c : Clause} (h : visit a c = none) {ν : Valuation}
    (agrees : a.Agrees ν) : Clause.holds ν c = false := by
  rw [visit] at h
  split at h
  · cases h
  · rename_i noTrue
    split at h
    · rename_i noOpen
      apply Bool.eq_false_iff.mpr
      intro holds
      obtain ⟨l, mem, free, _⟩ := Clause.open_of_holds agrees (by simpa using noTrue) holds
      have := List.filter_eq_nil_iff.mp noOpen l mem
      simp [free] at this
    · cases h
    · cases h

theorem pass_some {cs : List Clause} {a b : Assignment} (h : pass cs a = some b) :
    Forces cs a b := by
  induction cs generalizing a with
  | nil =>
    cases h
    exact .refl _ _
  | cons c cs ih =>
    obtain ⟨m, first, rest⟩ := Option.bind_eq_some_iff.mp h
    have one : Forces (c :: cs) a m := (visit_some first).mono (by simp)
    exact one.trans ((ih rest).mono (by simp +contextual))

theorem pass_none {cs : List Clause} {a : Assignment} (h : pass cs a = none) {ν : Valuation}
    (agrees : a.Agrees ν) : ∃ c ∈ cs, Clause.holds ν c = false := by
  induction cs generalizing a with
  | nil => cases h
  | cons c cs ih =>
    rw [pass] at h
    cases first : visit a c with
    | none => exact ⟨c, by simp, visit_none first agrees⟩
    | some m =>
      rw [first] at h
      cases holds : Clause.holds ν c with
      | false => exact ⟨c, by simp, holds⟩
      | true =>
        have agrees' := (visit_some first).forced ν (by simpa using holds) agrees
        obtain ⟨d, mem, hd⟩ := ih h agrees'
        exact ⟨d, by simp [mem], hd⟩

theorem propagate_some {cs : List Clause} {a b : Assignment} (h : propagate cs a = some b) :
    Forces cs a b := by
  fun_induction propagate cs a with
  | case1 => cases h
  | case2 a m first _ ih => exact (pass_some first).trans (ih h)
  | case3 a m first _ =>
    cases h
    exact pass_some first

theorem propagate_none {cs : List Clause} {a : Assignment} (h : propagate cs a = none)
    {ν : Valuation} (agrees : a.Agrees ν) : ∃ c ∈ cs, Clause.holds ν c = false := by
  fun_induction propagate cs a with
  | case1 a conflict => exact pass_none conflict agrees
  | case2 a m first _ ih =>
    by_cases hold : ∀ c ∈ cs, Clause.holds ν c = true
    · exact ih h ((pass_some first).forced ν hold agrees)
    · simpa using hold
  | case3 => cases h

/-- A conflict refutes the store for every valuation that agrees. -/
theorem propagate_refutes {f : Cnf} {a : Assignment} (h : propagate f.clauses a = none)
    {ν : Valuation} (agrees : a.Agrees ν) : f.holds ν = false := by
  obtain ⟨c, mem, hc⟩ := propagate_none h agrees
  apply Bool.eq_false_iff.mpr
  intro holds
  exact absurd (Cnf.holds_iff.mp holds c mem) (by simp [hc])

end Search

end MaxSat

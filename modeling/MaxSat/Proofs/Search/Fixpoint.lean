import MaxSat.Proofs.Search.Propagation

/-!
# Propagation ends at a fixpoint

`propagate` starts another pass only if the last one left fewer variables free, and a
value for a variable past the width is not stored: it ends and stays in range by
definition. A `Course` is the same loop with neither precaution. It goes on as
long as a pass stores anything at all, and a value without a place is a fault.

If every literal has a place, each stored value takes one free variable away. So a
course from any assignment ends after at most one pass more than there are free
variables, without a fault and with the answer of `propagate`; and its last pass
found every clause true or with two open occurrences.
-/

namespace MaxSat

namespace Assignment

theorem getElem_of_value_eq_none {a : Assignment} {v : Nat} (inside : v < a.size)
    (free : a.value v = none) : a[v] = none := by
  simpa [value, Array.getD_eq_getD_getElem?, inside] using free

/-- A new value leaves one variable less without one. -/
theorem unassigned_assign {a : Assignment} {v : Nat} (b : Bool) (inside : v < a.size)
    (free : a.value v = none) : (a.assign v b).unassigned + 1 = a.unassigned := by
  have here := getElem_of_value_eq_none inside free
  have positive : 0 < a.unassigned := by
    refine List.countP_pos_iff.mpr ⟨none, ?_, rfl⟩
    rw [← here]
    exact Array.getElem_mem_toList inside
  have stored : (a.assign v b).unassigned = a.unassigned - 1 := by
    simp [unassigned, assign, List.countP_set, inside, here]
  omega

end Assignment

namespace Search

/-- The assignment has a place for every variable of the clauses. -/
def InRange (cs : List Clause) (a : Assignment) : Prop := ∀ c ∈ cs, ∀ l ∈ c, l.var < a.size

/-- Propagation leaves the clause alone: a literal of it is true, or two occurrences at
least are open. -/
def AtRest (a : Assignment) (c : Clause) : Prop :=
  (∃ l ∈ c, l.status a = some true) ∨ 2 ≤ c.countP fun l => (l.status a).isNone

theorem InRange.head {c : Clause} {cs : List Clause} {a : Assignment}
    (inRange : InRange (c :: cs) a) : ∀ l ∈ c, l.var < a.size := inRange c (by simp)

theorem InRange.resize {cs : List Clause} {a b : Assignment} (inRange : InRange cs a)
    (size : b.size = a.size) : InRange cs b := by
  intro c mem l hl
  have := inRange c mem l hl
  omega

theorem InRange.tail {c : Clause} {cs : List Clause} {a b : Assignment}
    (inRange : InRange (c :: cs) a) (size : b.size = a.size) : InRange cs b :=
  InRange.resize (fun d mem => inRange d (by simp [mem])) size

theorem mem_of_unit {a : Assignment} {c : Clause} {l : Lit}
    (unit : c.filter (fun k => (k.status a).isNone) = [l]) : l ∈ c ∧ a.value l.var = none := by
  have mem : l ∈ c.filter (fun k => (k.status a).isNone) := by simp [unit]
  obtain ⟨inClause, isOpen⟩ := List.mem_filter.mp mem
  exact ⟨inClause, Lit.status_eq_none_iff.mp (by simpa using isOpen)⟩

/-- A turn finds the clause at rest, or stores a value for a variable that was free. -/
theorem visit_cases {a b : Assignment} {c : Clause} (h : visit a c = some b) :
    (b = a ∧ AtRest a c) ∨
      ∃ l ∈ c, a.value l.var = none ∧ b = a.assign l.var l.positive := by
  rw [visit] at h
  split at h
  · rename_i found
    cases h
    obtain ⟨l, mem, hl⟩ := List.any_eq_true.mp found
    exact Or.inl ⟨rfl, Or.inl ⟨l, mem, by simpa using hl⟩⟩
  · split at h
    · cases h
    · rename_i l unit
      cases h
      obtain ⟨mem, free⟩ := mem_of_unit unit
      exact Or.inr ⟨l, mem, free, rfl⟩
    · rename_i notNone notUnit
      cases h
      refine Or.inl ⟨rfl, Or.inr ?_⟩
      -- neither none nor one of the occurrences is open
      have notZero := mt List.length_eq_zero_iff.mp notNone
      have notOne : (c.filter fun l => (l.status a).isNone).length ≠ 1 := by
        intro one
        obtain ⟨l, unit⟩ := List.length_eq_one_iff.mp one
        exact notUnit l unit
      rw [List.countP_eq_length_filter]
      omega

/-- A turn takes no value away; if it adds none, the clause is at rest. -/
theorem visit_unassigned {a b : Assignment} {c : Clause} (inside : ∀ l ∈ c, l.var < a.size)
    (h : visit a c = some b) :
    b.unassigned ≤ a.unassigned ∧ (a.unassigned ≤ b.unassigned → b = a ∧ AtRest a c) := by
  rcases visit_cases h with ⟨rfl, atRest⟩ | ⟨l, mem, free, rfl⟩
  · exact ⟨Nat.le_refl _, fun _ => ⟨rfl, atRest⟩⟩
  · have fewer := Assignment.unassigned_assign l.positive (inside l mem) free
    constructor
    · omega
    · intro same
      omega

theorem pass_unassigned {cs : List Clause} {a b : Assignment} (inRange : InRange cs a)
    (h : pass cs a = some b) :
    b.unassigned ≤ a.unassigned ∧
      (a.unassigned ≤ b.unassigned → b = a ∧ ∀ c ∈ cs, AtRest a c) := by
  induction cs generalizing a with
  | nil =>
    cases h
    exact ⟨Nat.le_refl _, fun _ => ⟨rfl, by simp⟩⟩
  | cons c cs ih =>
    obtain ⟨m, first, rest⟩ := Option.bind_eq_some_iff.mp h
    obtain ⟨le, stays⟩ := visit_unassigned inRange.head first
    obtain ⟨le', stays'⟩ := ih (inRange.tail (visit_some first).size) rest
    constructor
    · omega
    · intro same
      obtain ⟨rfl, atRest⟩ := stays (by omega)
      obtain ⟨rfl, allRest⟩ := stays' same
      exact ⟨rfl, by simpa using ⟨atRest, allRest⟩⟩

/-- The last pass changed nothing, so it saw every clause under the values it returned. -/
theorem propagate_atRest {cs : List Clause} {a b : Assignment} (inRange : InRange cs a)
    (h : propagate cs a = some b) : ∀ c ∈ cs, AtRest b c := by
  fun_induction propagate cs a with
  | case1 => cases h
  | case2 a m first _ ih => exact ih (inRange.resize (pass_some first).size) h
  | case3 a m first notFewer =>
    cases h
    obtain ⟨rfl, atRest⟩ := (pass_unassigned inRange first).2 (by omega)
    exact atRest

/-- A variable that an assignment has no place for. -/
structure OutOfRange where
  var : Nat
  deriving DecidableEq

/-- A pass under way: the values so far, and whether the pass stored one of them. -/
structure Sweep where
  values : Assignment
  changed : Bool := false
  deriving DecidableEq

namespace Sweep

/-- Makes a literal true. Its variable must have a place; a value that stands there already
must be the right one. -/
def force (s : Sweep) (l : Lit) : Except OutOfRange (Option Sweep) :=
  if inside : l.var < s.values.size then
    match s.values[l.var] with
    | none => .ok (some ⟨s.values.set l.var (some l.positive), true⟩)
    | some b => .ok (if b == l.positive then some s else none)
  else .error ⟨l.var⟩

/-- One clause's turn. -/
def visit (s : Sweep) (c : Clause) : Except OutOfRange (Option Sweep) :=
  if c.any fun l => l.status s.values == some true then .ok (some s)
  else match c.filter fun l => (l.status s.values).isNone with
    | [] => .ok none
    | [l] => s.force l
    | _ => .ok (some s)

/-- The turns of the clauses in order, up to the first fault or conflict. -/
def pass : List Clause → Sweep → Except OutOfRange (Option Sweep)
  | [], s => .ok (some s)
  | c :: cs, s =>
    match s.visit c with
    | .error fault => .error fault
    | .ok none => .ok none
    | .ok (some t) => pass cs t

/-- The pass once it has come to `b`. -/
def move (s : Sweep) (b : Assignment) : Sweep :=
  ⟨b, s.changed || decide (b.unassigned < s.values.unassigned)⟩

@[simp] theorem values_move (s : Sweep) (b : Assignment) : (s.move b).values = b := rfl

@[simp] theorem move_values (s : Sweep) : s.move s.values = s := by
  simp [move]

theorem move_of_fewer (s : Sweep) {b : Assignment} (fewer : b.unassigned < s.values.unassigned) :
    s.move b = ⟨b, true⟩ := by
  simp [move, fewer]

theorem force_eq {s : Sweep} {l : Lit} (inside : l.var < s.values.size)
    (free : s.values.value l.var = none) :
    s.force l = .ok (some (s.move (s.values.assign l.var l.positive))) := by
  have fewer := Assignment.unassigned_assign l.positive inside free
  rw [s.move_of_fewer (by omega)]
  simp [force, inside, Assignment.getElem_of_value_eq_none inside free, Assignment.assign,
    Array.setIfInBounds]

/-- A checked turn does what `Search.visit` does. -/
theorem visit_eq {s : Sweep} {c : Clause} (inside : ∀ l ∈ c, l.var < s.values.size) :
    s.visit c = .ok ((Search.visit s.values c).map s.move) := by
  rw [visit, Search.visit]
  split
  · simp
  · cases opens : c.filter fun l => (l.status s.values).isNone with
    | nil => rfl
    | cons l others =>
      cases others with
      | nil =>
        obtain ⟨mem, free⟩ := mem_of_unit opens
        exact force_eq (inside l mem) free
      | cons k others => simp

/-- Something was stored on the whole way if it was on either part of it. -/
theorem move_move (s : Sweep) {b d : Assignment} (first : b.unassigned ≤ s.values.unassigned)
    (second : d.unassigned ≤ b.unassigned) : (s.move b).move d = s.move d := by
  have either : (decide (b.unassigned < s.values.unassigned) ||
      decide (d.unassigned < b.unassigned)) = decide (d.unassigned < s.values.unassigned) := by
    rw [← Bool.decide_or]
    exact decide_eq_decide.mpr (by omega)
  calc (s.move b).move d
      = ⟨d, s.changed || decide (b.unassigned < s.values.unassigned) ||
          decide (d.unassigned < b.unassigned)⟩ := rfl
    _ = s.move d := by rw [Bool.or_assoc, either, move]

/-- A checked pass does what `Search.pass` does, and notices if it stored a value. -/
theorem pass_eq {cs : List Clause} {s : Sweep} (inRange : InRange cs s.values) :
    s.pass cs = .ok ((Search.pass cs s.values).map s.move) := by
  induction cs generalizing s with
  | nil => simp [pass, Search.pass]
  | cons c cs ih =>
    rw [pass, visit_eq inRange.head, Search.pass]
    cases first : Search.visit s.values c with
    | none => rfl
    | some b =>
      have rest : InRange cs b := inRange.tail (visit_some first).size
      have later : (s.move b).pass cs = _ := ih (s := s.move b) rest
      simp only [Option.map_some, Option.bind_some, later, values_move]
      cases second : Search.pass cs b with
      | none => rfl
      | some d =>
        have le := (visit_unassigned inRange.head first).1
        have le' := (pass_unassigned rest second).1
        rw [Option.map_some, Option.map_some, s.move_move le le']

end Sweep

/-- The loop from `a`: it makes the given number of passes and ends with the given result, a
fault, a conflict or an assignment. -/
inductive Course (cs : List Clause) :
    Assignment → Nat → Except OutOfRange (Option Assignment) → Prop
  | fault {a : Assignment} {e : OutOfRange} (out : Sweep.pass cs ⟨a, false⟩ = .error e) :
      Course cs a 1 (.error e)
  | conflict {a : Assignment} (clash : Sweep.pass cs ⟨a, false⟩ = .ok none) :
      Course cs a 1 (.ok none)
  | still {a b : Assignment} (same : Sweep.pass cs ⟨a, false⟩ = .ok (some ⟨b, false⟩)) :
      Course cs a 1 (.ok (some b))
  | again {a b : Assignment} {n : Nat} {r : Except OutOfRange (Option Assignment)}
      (more : Sweep.pass cs ⟨a, false⟩ = .ok (some ⟨b, true⟩)) (next : Course cs b n r) :
      Course cs a (n + 1) r

/-- A course is determined by where it starts. -/
theorem Course.unique {cs : List Clause} {a : Assignment} {m n : Nat}
    {r t : Except OutOfRange (Option Assignment)} (left : Course cs a m r)
    (right : Course cs a n t) : m = n ∧ r = t := by
  induction left generalizing n with
  | fault out => cases right <;> simp_all
  | conflict clash => cases right <;> simp_all
  | still same => cases right <;> simp_all
  | again more _ ih =>
    cases right with
    | again more' next' =>
      have same := more.symm.trans more'
      simp only [Except.ok.injEq, Option.some.injEq, Sweep.mk.injEq, and_true] at same
      subst same
      obtain ⟨rfl, rfl⟩ := ih next'
      exact ⟨rfl, rfl⟩
    | _ => simp_all

/-- With a place for every variable the loop ends as `propagate` does. Each pass but the last
leaves fewer variables free. -/
theorem exists_course {cs : List Clause} {a : Assignment} (inRange : InRange cs a) :
    ∃ n ≤ a.unassigned + 1, Course cs a n (.ok (propagate cs a)) := by
  fun_induction propagate cs a with
  | case1 a clash =>
    refine ⟨1, by omega, .conflict ?_⟩
    rw [Sweep.pass_eq inRange, clash]
    rfl
  | case2 a b first fewer ih =>
    obtain ⟨n, bound, course⟩ := ih (inRange.resize (pass_some first).size)
    refine ⟨n + 1, by omega, .again ?_ course⟩
    rw [Sweep.pass_eq (s := ⟨a, false⟩) inRange, first]
    simp [Sweep.move, fewer]
  | case3 a b first notFewer =>
    refine ⟨1, by omega, .still ?_⟩
    rw [Sweep.pass_eq (s := ⟨a, false⟩) inRange, first]
    simp [Sweep.move, notFewer]

-- without a place for its last open literal a clause is a fault
example : Course [[Lit.pos 1, Lit.pos 2], [Lit.pos 1]] #[none, some false] 1 (.error ⟨2⟩) :=
  .fault rfl

/-- If every literal has a place in the assignment, propagation ends after at most one pass
more than there are free variables, and never at a variable without a place. If it finds a
conflict, no model of the store agrees with the assignment. Otherwise the models that agree
are the same before and after, no value is taken back, and every clause has a true literal or
two open occurrences. -/
theorem propagate_keeps_models {f : Cnf} {a : Assignment}
    (inRange : ∀ c ∈ f.clauses, ∀ l ∈ c, l.var < a.size) :
    (∃ n ≤ a.unassigned + 1, ∀ m r, Course f.clauses a m r ↔
        m = n ∧ r = .ok (propagate f.clauses a)) ∧
      (propagate f.clauses a = none → ∀ ν, a.Agrees ν → f.holds ν = false) ∧
      ∀ b, propagate f.clauses a = some b →
        b.size = a.size ∧ a.Within b ∧
        (∀ ν, a.Agrees ν ∧ f.holds ν = true ↔ b.Agrees ν ∧ f.holds ν = true) ∧
        ∀ c ∈ f.clauses, (∃ l ∈ c, l.status b = some true) ∨
          2 ≤ c.countP fun l => (l.status b).isNone := by
  refine ⟨?_, fun clash ν agrees => propagate_refutes clash agrees, ?_⟩
  · obtain ⟨n, bound, course⟩ := exists_course inRange
    refine ⟨n, bound, fun m r => ⟨fun other => other.unique course, ?_⟩⟩
    rintro ⟨rfl, rfl⟩
    exact course
  · intro b done
    have forces := propagate_some done
    refine ⟨forces.size, forces.within, fun ν => ?_, propagate_atRest inRange done⟩
    exact and_congr_left fun holds => forces.agrees_iff (Cnf.holds_iff.mp holds)

/-- The unit clause comes after the clause that waits for it, so a second pass is needed and a
third one to notice the end; the repeated literal and the tautology stay open. With one more
clause the second pass ends in a conflict. -/
theorem propagate_keeps_models_late_unit :
    let f : Cnf := ⟨4, [[Lit.neg 1, Lit.pos 2], [Lit.pos 1], [Lit.pos 3, Lit.pos 3],
      [Lit.pos 4, Lit.neg 4]]⟩
    let g := f.addClause [Lit.neg 2, Lit.neg 1]
    let a : Assignment := #[none, none, none, none, none]
    let b : Assignment := #[none, some true, some true, none, none]
    propagate f.clauses a = some b ∧ propagate g.clauses a = none ∧
      (∀ m r, Course f.clauses a m r ↔ m = 3 ∧ r = .ok (some b)) ∧ a.Within b ∧
      (∀ ν, a.Agrees ν ∧ f.holds ν = true ↔ b.Agrees ν ∧ f.holds ν = true) ∧
      ∀ ν, a.Agrees ν → g.holds ν = false := by
  intro f g a b
  have done : propagate f.clauses a = some b := by decide +kernel
  have clash : propagate g.clauses a = none := by decide +kernel
  obtain ⟨⟨n, _, course⟩, _, after⟩ := propagate_keeps_models (f := f) (a := a) (by decide)
  obtain ⟨_, refutes, _⟩ := propagate_keeps_models (f := g) (a := a) (by decide)
  obtain ⟨_, within, models, _⟩ := after b done
  have passes : Course f.clauses a 3 (.ok (some b)) :=
    .again (b := #[none, some true, none, none, none]) rfl (.again (b := b) rfl (.still rfl))
  obtain ⟨rfl, _⟩ := (course 3 _).mp passes
  exact ⟨done, clash, by simpa [done] using course, within, models, refutes clash⟩

end Search

end MaxSat

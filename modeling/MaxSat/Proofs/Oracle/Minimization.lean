import Mathlib.Data.List.Perm.Subperm
import MaxSat.Oracle.Basic
import MaxSat.Proofs.Oracle.Exhaustive

/-!
# Minimal cores by deletion

Deletion leaves out one literal after the other. If the others are refuted, the
answer's own core may let go of more of them at once, and the next trial is at the
same place. A literal that was passed over is needed beside more literals than
there are later, so no later core is without it: its place does not change, and
no literal is skipped. Each refuted trial makes a list without repetitions
shorter, since its core cannot have the literal that was left out.

`Deletes` describes a course of deletion that ends, without any bound. Whatever
bound is larger than the number of trials then gives its result.
-/

namespace MaxSat

variable {α : Type} {ask : α → List Lit → Reply × α}

/-- The state after calls on the given lists, whatever the answers are. -/
def afterCalls (ask : α → List Lit → Reply × α) (s : α) (trials : List (List Lit)) : α :=
  trials.foldl (fun s ls => (ask s ls).2) s

/-- Goes on at position `i` of `kept`, by calls on `trials` and a last one on `part`, which is
left in the end. -/
inductive Deletes (ask : α → List Lit → Reply × α) :
    α → List Lit → Nat → List (List Lit) → List Lit → Prop
  | done {s : α} {kept : List Lit} {i : Nat} (past : kept.length ≤ i)
      (answered : ∀ reason, (ask s kept).1 ≠ .failed reason) : Deletes ask s kept i [] kept
  | pass {s : α} {kept : List Lit} {i : Nat} {trials : List (List Lit)} {part : List Lit}
      (inside : i < kept.length) (sat : (ask s (kept.eraseIdx i)).1 = .sat)
      (next : Deletes ask (ask s (kept.eraseIdx i)).2 kept (i + 1) trials part) :
      Deletes ask s kept i (kept.eraseIdx i :: trials) part
  | drop {s : α} {kept : List Lit} {i : Nat} {core : Option (List Lit)}
      {trials : List (List Lit)} {part : List Lit} (inside : i < kept.length)
      (unsat : (ask s (kept.eraseIdx i)).1 = .unsat core)
      (next : Deletes ask (ask s (kept.eraseIdx i)).2
        (kept.filter (core.getD (kept.eraseIdx i)).contains) i trials part) :
      Deletes ask s kept i (kept.eraseIdx i :: trials) part

namespace Deletes

variable {s : α} {kept part : List Lit} {i : Nat} {trials : List (List Lit)}

/-- A bound above the number of trials is not felt. -/
theorem minimizeFrom_eq (course : Deletes ask s kept i trials part) {fuel : Nat}
    (enough : trials.length < fuel) :
    minimizeFrom ask fuel kept i s = (.ok part, (ask (afterCalls ask s trials) part).2) := by
  induction course generalizing fuel with
  | @done s kept i past answered =>
    obtain ⟨fuel, rfl⟩ := Nat.exists_eq_add_of_lt enough
    rw [minimizeFrom, if_pos past]
    change _ = (Except.ok kept, (ask s kept).2)
    generalize ask s kept = called at answered
    obtain ⟨reply, s'⟩ := called
    cases reply with
    | failed reason => exact absurd rfl (answered reason)
    | sat => rfl
    | unsat core => rfl
  | @pass s kept i trials part inside sat _ ih =>
    cases fuel with
    | zero => cases enough
    | succ fuel =>
      have later := ih (Nat.lt_of_succ_lt_succ enough)
      rw [minimizeFrom, if_neg (Nat.not_le_of_lt inside)]
      change _ = (Except.ok part, (ask (afterCalls ask (ask s (kept.eraseIdx i)).2 trials) part).2)
      rw [← later]
      dsimp only
      generalize ask s (kept.eraseIdx i) = called at sat
      obtain ⟨reply, s'⟩ := called
      obtain rfl : reply = .sat := sat
      rfl
  | @drop s kept i core trials part inside unsat _ ih =>
    cases fuel with
    | zero => cases enough
    | succ fuel =>
      have later := ih (Nat.lt_of_succ_lt_succ enough)
      rw [minimizeFrom, if_neg (Nat.not_le_of_lt inside)]
      change _ = (Except.ok part, (ask (afterCalls ask (ask s (kept.eraseIdx i)).2 trials) part).2)
      rw [← later]
      dsimp only
      generalize ask s (kept.eraseIdx i) = called at unsat
      obtain ⟨reply, s'⟩ := called
      obtain rfl : reply = .unsat core := unsat
      rfl

/-- Literals are only ever left out. -/
theorem sublist (course : Deletes ask s kept i trials part) : part.Sublist kept := by
  induction course with
  | done => exact .refl _
  | pass _ _ _ ih => exact ih
  | drop _ _ _ ih => exact ih.trans List.filter_sublist

end Deletes

/-- A right answer to a call on `ls`: a core is any list of assumed literals that is refuted, in
any order and with any repetitions. -/
inductive Reply.Truthful (cs : List Clause) (ls : List Lit) : Reply → Prop
  | sat (consistent : Consistent cs ls) : Truthful cs ls .sat
  | unsat (core : List Lit) (subset : ∀ l ∈ core, l ∈ ls) (refuted : ¬ Consistent cs core) :
      Truthful cs ls (.unsat (some core))

theorem Reply.Right.truthful {cs : List Clause} {ls : List Lit} {n : Nat}
    {value : Nat → Option Bool} {reply : Reply} (right : reply.Right cs ls n value) :
    reply.Truthful cs ls := by
  cases right with
  | sat ν clauses literals _ => exact .sat ⟨ν, clauses, literals⟩
  | unsat core _ subset refuted => exact .unsat core subset refuted

namespace Reply.Truthful

variable {cs : List Clause} {ls : List Lit} {reply : Reply}

theorem ne_failed (truthful : reply.Truthful cs ls) (reason : String) : reply ≠ .failed reason := by
  rintro rfl
  cases truthful

theorem of_consistent (truthful : reply.Truthful cs ls) (consistent : Consistent cs ls) :
    reply = .sat := by
  cases truthful with
  | sat => rfl
  | unsat core subset refuted => exact absurd (consistent.mono subset) refuted

theorem of_refuted (truthful : reply.Truthful cs ls) (refuted : ¬ Consistent cs ls) :
    ∃ core, reply = .unsat (some core) := by
  cases truthful with
  | sat consistent => exact absurd consistent refuted
  | unsat core => exact ⟨core, rfl⟩

end Reply.Truthful

/-- Calls on parts of `core` are answered rightly for the clauses `cs`, and lead from states that
have just these clauses to such states. -/
def AnswersParts (ask : α → List Lit → Reply × α) (Valid : α → Prop) (cs : List Clause)
    (core : List Lit) : Prop :=
  ∀ s ls, Valid s → ls.Sublist core → Valid (ask s ls).2 ∧ (ask s ls).1.Truthful cs ls

theorem AnswersParts.afterCalls {Valid : α → Prop} {cs : List Clause} {core : List Lit}
    (right : AnswersParts ask Valid cs core) {s : α} (valid : Valid s) {trials : List (List Lit)}
    (parts : ∀ ls ∈ trials, ls.Sublist core) : Valid (afterCalls ask s trials) := by
  induction trials generalizing s with
  | nil => exact valid
  | cons ls trials ih =>
    obtain ⟨first, rest⟩ := List.forall_mem_cons.mp parts
    exact ih (right s ls valid first).1 rest

/-- The literals other than `l` are consistent with the clauses. -/
def Needed (cs : List Clause) (kept : List Lit) (l : Lit) : Prop :=
  ∀ ks : List Lit, (∀ k ∈ ks, k ∈ kept ∧ k ≠ l) → Consistent cs ks

section Trial

variable {cs : List Clause} {kept core : List Lit} {i : Nat}

theorem Needed.mono {l : Lit} (needed : Needed cs kept l) {part : List Lit}
    (subset : ∀ k ∈ part, k ∈ kept) : Needed cs part l := by
  intro ks others
  apply needed
  intro k mem
  exact ⟨subset k (others k mem).1, (others k mem).2⟩

/-- Without a needed literal nothing is refuted. -/
theorem Needed.mem_core {l : Lit} (needed : Needed cs kept l) (subset : ∀ k ∈ core, k ∈ kept)
    (refuted : ¬ Consistent cs core) : l ∈ core := by
  by_contra outside
  apply refuted
  apply needed
  intro k mem
  exact ⟨subset k mem, ne_of_mem_of_not_mem mem outside⟩

/-- A literal is needed if the trial without it is consistent. -/
theorem needed_of_trial (inside : i < kept.length) (consistent : Consistent cs (kept.eraseIdx i)) :
    Needed cs kept kept[i] := by
  intro ks others
  apply consistent.mono
  intro k mem
  obtain ⟨inKept, ne⟩ := others k mem
  obtain ⟨j, hj, rfl⟩ := List.mem_iff_getElem.mp inKept
  refine List.mem_eraseIdx_iff_getElem.mpr ⟨j, hj, ?_, rfl⟩
  rintro rfl
  exact ne rfl

/-- A core without the literal at `i` is shorter than the list that it is taken from. -/
theorem length_filter_core_lt (distinct : kept.Nodup) (inside : i < kept.length)
    (subset : ∀ l ∈ core, l ∈ kept.eraseIdx i) :
    (kept.filter core.contains).length < kept.length := by
  refine List.length_filter_lt_length_iff_exists.mpr ⟨kept[i], List.getElem_mem inside, ?_⟩
  intro mem
  obtain ⟨j, _, ne, same⟩ := List.mem_eraseIdx_iff_getElem.mp (subset _ (by simpa using mem))
  exact ne ((List.getElem_inj distinct).mp same)

/-- What a refuted trial leaves is refuted. -/
theorem filter_core_refuted (subset : ∀ l ∈ core, l ∈ kept) (refuted : ¬ Consistent cs core) :
    ¬ Consistent cs (kept.filter core.contains) := by
  intro consistent
  apply refuted
  apply consistent.mono
  intro l mem
  exact List.mem_filter.mpr ⟨subset l mem, by simpa using mem⟩

/-- The literals passed over stay in their places. -/
theorem take_filter_core (inside : i ≤ kept.length) (passed : ∀ l ∈ kept.take i, Needed cs kept l)
    (subset : ∀ l ∈ core, l ∈ kept) (refuted : ¬ Consistent cs core) :
    (kept.filter core.contains).take i = kept.take i := by
  have stay : (kept.take i).filter core.contains = kept.take i := by
    apply List.filter_eq_self.mpr
    intro l mem
    simpa using (passed l mem).mem_core subset refuted
  have length : (kept.take i).length = i := List.length_take_of_le inside
  conv_lhs => rw [← List.take_append_drop i kept]
  rw [List.filter_append, stay, List.take_append_of_le_length (Nat.le_of_eq length.symm),
    List.take_of_length_le (Nat.le_of_eq length)]

end Trial

section Course

variable {Valid : α → Prop} {cs : List Clause} {core : List Lit}
  (right : AnswersParts ask Valid cs core)
include right

/-- Every trial passes a literal over or makes the list shorter, so deletion ends. -/
theorem exists_deletes {n : Nat} {s : α} {kept : List Lit} {i : Nat} (valid : Valid s)
    (distinct : kept.Nodup) (within : kept.Sublist core) (enough : kept.length - i < n) :
    ∃ trials part, Deletes ask s kept i trials part ∧ trials.length < n := by
  induction n generalizing s kept i with
  | zero => omega
  | succ n ih =>
    by_cases past : kept.length ≤ i
    · have answered := (right s kept valid within).2.ne_failed
      exact ⟨[], kept, .done past answered, Nat.succ_pos n⟩
    · have inside : i < kept.length := Nat.lt_of_not_le past
      have trial : (kept.eraseIdx i).Sublist core := (kept.eraseIdx_sublist i).trans within
      obtain ⟨valid', truthful⟩ := right s _ valid trial
      generalize reply : (ask s (kept.eraseIdx i)).1 = answer at truthful
      cases truthful with
      | sat =>
        obtain ⟨trials, part, course, fewer⟩ := ih valid' distinct within (i := i + 1) (by omega)
        exact ⟨_, part, .pass inside reply course, Nat.succ_lt_succ fewer⟩
      | unsat k subset =>
        have shorter := length_filter_core_lt distinct inside subset
        have sublist : (kept.filter k.contains).Sublist kept := List.filter_sublist
        obtain ⟨trials, part, course, fewer⟩ :=
          ih valid' (distinct.sublist sublist) (sublist.trans within) (i := i) (by omega)
        exact ⟨_, part, .drop inside reply course, Nat.succ_lt_succ fewer⟩

namespace Deletes

variable {s : α} {kept part : List Lit} {i : Nat} {trials : List (List Lit)}

omit right in
theorem trials_sublist (course : Deletes ask s kept i trials part) :
    ∀ ls ∈ trials, ls.Sublist kept := by
  induction course with
  | done => simp
  | pass _ _ _ ih => exact List.forall_mem_cons.mpr ⟨List.eraseIdx_sublist _ _, ih⟩
  | drop _ _ _ ih =>
    refine List.forall_mem_cons.mpr ⟨List.eraseIdx_sublist _ _, fun ls mem => ?_⟩
    exact (ih ls mem).trans List.filter_sublist

/-- What is left is refuted if the literals were, and otherwise it is all of them. -/
theorem consistent_iff (course : Deletes ask s kept i trials part) (valid : Valid s)
    (within : kept.Sublist core) :
    (¬ Consistent cs kept → ¬ Consistent cs part) ∧ (Consistent cs kept → part = kept) := by
  induction course with
  | done => exact ⟨id, fun _ => rfl⟩
  | @pass s kept i _ _ _ _ _ ih =>
    have trial : (kept.eraseIdx i).Sublist core := (kept.eraseIdx_sublist i).trans within
    exact ih (right s _ valid trial).1 within
  | @drop s kept i _ _ _ _ unsat _ ih =>
    have trial : (kept.eraseIdx i).Sublist kept := kept.eraseIdx_sublist i
    obtain ⟨valid', truthful⟩ := right s _ valid (trial.trans within)
    rw [unsat] at truthful
    cases truthful with
    | unsat k subset refuted =>
      have inKept : ∀ l ∈ k, l ∈ kept := fun l mem => trial.mem (subset l mem)
      have less : (kept.filter k.contains).Sublist kept := List.filter_sublist
      constructor
      · intro _
        exact (ih valid' (less.trans within)).1 (filter_core_refuted inKept refuted)
      · intro consistent
        exact absurd (consistent.mono inKept) refuted

/-- If the literals passed over are needed, then all literals that are left are. -/
theorem needed (course : Deletes ask s kept i trials part) (valid : Valid s)
    (within : kept.Sublist core) (passed : ∀ l ∈ kept.take i, Needed cs kept l) :
    ∀ l ∈ part, Needed cs part l := by
  induction course with
  | @done s kept i past =>
    rwa [List.take_of_length_le past] at passed
  | @pass s kept i _ _ inside sat _ ih =>
    have trial : (kept.eraseIdx i).Sublist core := (kept.eraseIdx_sublist i).trans within
    obtain ⟨valid', truthful⟩ := right s _ valid trial
    rw [sat] at truthful
    cases truthful with
    | sat consistent =>
      apply ih valid' within
      rw [List.take_succ_eq_append_getElem inside]
      intro l mem
      rcases List.mem_append.mp mem with before | here
      · exact passed l before
      · rw [List.mem_singleton.mp here]
        exact needed_of_trial inside consistent
  | @drop s kept i _ _ _ inside unsat _ ih =>
    have trial : (kept.eraseIdx i).Sublist kept := kept.eraseIdx_sublist i
    obtain ⟨valid', truthful⟩ := right s _ valid (trial.trans within)
    rw [unsat] at truthful
    cases truthful with
    | unsat k subset refuted =>
      have inKept : ∀ l ∈ k, l ∈ kept := fun l mem => trial.mem (subset l mem)
      have less : (kept.filter k.contains).Sublist kept := List.filter_sublist
      apply ih valid' (less.trans within)
      -- the core has all the literals in front of the place
      have places := take_filter_core (Nat.le_of_lt inside) passed inKept refuted
      intro l mem
      change l ∈ (kept.filter k.contains).take i at mem
      rw [places] at mem
      exact (passed l mem).mono fun m inPart => less.mem inPart

end Deletes

end Course

/-- A proper part misses a literal, and without that one the others are consistent. -/
theorem consistent_of_proper_part {cs : List Clause} {part sub : List Lit} (distinct : part.Nodup)
    (needed : ∀ l ∈ part, Needed cs part l) (sublist : sub.Sublist part) (proper : sub ≠ part) :
    Consistent cs sub := by
  have missing : ∃ l ∈ part, l ∉ sub := by
    by_contra all
    push Not at all
    have length := (distinct.subperm all).length_le
    exact proper (sublist.eq_of_length_le length)
  obtain ⟨l, inPart, outside⟩ := missing
  apply needed l inPart
  intro k mem
  exact ⟨sublist.mem mem, ne_of_mem_of_not_mem mem outside⟩

/-- Deletion ends within its bound, and keeps a refuted list refuted. -/
theorem minimizeFrom_spec {Valid : α → Prop} {cs : List Clause} {kept : List Lit}
    (right : AnswersParts ask Valid cs kept) (fuel : Nat) {i : Nat} {s : α} (valid : Valid s)
    (distinct : kept.Nodup) (refuted : ¬ Consistent cs kept) (enough : kept.length - i < fuel) :
    ∃ core s', minimizeFrom ask fuel kept i s = (.ok core, s') ∧ Valid s' ∧
      core.Sublist kept ∧ ¬ Consistent cs core := by
  obtain ⟨trials, core, course, fewer⟩ := exists_deletes right valid distinct (.refl kept) enough
  have before := right.afterCalls valid course.trials_sublist
  exact ⟨core, _, course.minimizeFrom_eq fewer, (right _ core before course.sublist).1,
    course.sublist, (course.consistent_iff right valid (.refl kept)).1 refuted⟩

/-- Minimization comes to an end after at most one trial for each literal and a call on what is
left, and makes no other calls. Of a refuted list it leaves a part that is refuted, while every
proper part of that is consistent, and the last call is refuted. A consistent list stays as it
is, and the last call says so. A larger bound on the calls would change nothing. -/
theorem minimizeCore_is_minimal {σ : Type} [SatOracle σ] {Holds : σ → List Clause → Prop}
    {cs : List Clause} {core : List Lit}
    (right : AnswersParts SatOracle.solve (fun s : σ => Holds s cs) cs core) {s : σ}
    (holds : Holds s cs) (distinct : core.Nodup) :
    ∃ trials part, trials.length ≤ core.length ∧ part.Sublist core ∧
      let last := SatOracle.solve (afterCalls SatOracle.solve s trials) part
      (∀ fuel, core.length < fuel →
        minimizeFrom SatOracle.solve fuel core 0 s = (.ok part, last.2)) ∧
      minimizeCore s core = (.ok part, last.2) ∧ Holds last.2 cs ∧
      (¬ Consistent cs core → ¬ Consistent cs part ∧
        (∀ sub, sub.Sublist part → sub ≠ part → Consistent cs sub) ∧
          ∃ k, last.1 = .unsat (some k)) ∧
      (Consistent cs core → part = core ∧ last.1 = .sat) := by
  obtain ⟨trials, part, course, fewer⟩ :=
    exists_deletes right holds distinct (.refl core) (i := 0) (Nat.lt_succ_self _)
  have fewer : trials.length ≤ core.length := Nat.le_of_lt_succ fewer
  have sublist := course.sublist
  have results (fuel : Nat) (enough : core.length < fuel) :=
    course.minimizeFrom_eq (Nat.lt_of_le_of_lt fewer enough)
  have before := right.afterCalls holds course.trials_sublist
  obtain ⟨after, truthful⟩ := right _ part before sublist
  obtain ⟨refuted, unchanged⟩ := course.consistent_iff right holds (.refl core)
  have needed := course.needed right holds (.refl core) (by simp)
  refine ⟨trials, part, fewer, sublist, results, results _ (Nat.lt_succ_self _), after, ?_, ?_⟩
  · intro given
    refine ⟨refuted given, ?_, truthful.of_refuted (refuted given)⟩
    intro sub proper
    exact consistent_of_proper_part (distinct.sublist sublist) needed proper
  · intro given
    have same := unchanged given
    exact ⟨same, truthful.of_consistent (same ▸ given)⟩

/-- The exhaustive solver answers rightly on literals with an id. -/
theorem ExhaustiveSolver.answersParts {cs : List Clause} {core : List Lit}
    (positive : ∀ l ∈ core, 1 ≤ l.var) :
    AnswersParts SatOracle.solve (fun s : ExhaustiveSolver => s.Holds cs) cs core := by
  rintro s ls ⟨rfl, proper⟩ sublist
  constructor
  · change (s.solve ls).2.Holds _
    rw [Holds, s.cnf_solve]
    exact ⟨rfl, proper⟩
  · change (s.solve ls).1.Truthful _ ls
    rcases solve_cases proper fun l mem => positive l (sublist.mem mem) with
      ⟨m, least, answer⟩ | ⟨k, part, minimal, answer⟩
    · rw [answer]
      exact .sat ⟨_, Cnf.holds_iff.mp least.satisfies.1, least.satisfies.2⟩
    · rw [answer]
      exact .unsat k (fun l mem => part.mem mem) minimal.refuted

/-- Without its first literal the list is refuted by two of the four others, and each of these is
needed. A list that contradicts nothing stays. -/
theorem minimizeCore_is_minimal_drops_three :
    let cs := [[Lit.neg 1, Lit.neg 2], [Lit.neg 1, Lit.neg 3]]
    let s := cs.foldl ExhaustiveSolver.addClause {}
    let core := [Lit.pos 4, Lit.pos 1, Lit.neg 5, Lit.pos 2, Lit.pos 3]
    let others := [Lit.pos 4, Lit.pos 1, Lit.neg 5]
    s.Holds cs ∧ core.Nodup ∧ ¬ Consistent cs core ∧ others.Nodup ∧ Consistent cs others ∧
      (minimizeCore s core).1 = .ok [Lit.pos 1, Lit.pos 3] ∧
      ¬ Consistent cs [Lit.pos 1, Lit.pos 3] ∧
      (∀ sub, sub.Sublist [Lit.pos 1, Lit.pos 3] → sub ≠ [Lit.pos 1, Lit.pos 3] →
        Consistent cs sub) ∧
      (minimizeCore s others).1 = .ok others := by
  intro cs s core others
  have made : s.Made cs := .addClause (.addClause .new (by decide)) (by decide)
  have holds : s.Holds cs := made.holds.1
  have distinct : core.Nodup := by decide
  have refuted : ¬ Consistent cs core := by
    rintro ⟨ν, clauses, literals⟩
    have one := literals (Lit.pos 1) (by simp [core])
    have two := literals (Lit.pos 2) (by simp [core])
    have clause := clauses [Lit.neg 1, Lit.neg 2] (by simp [cs])
    simp_all
  have distinct' : others.Nodup := by decide
  have consistent : Consistent cs others :=
    ⟨fun v => v == 1 || v == 4, by decide, by decide⟩
  have result : (minimizeCore s core).1 = .ok [Lit.pos 1, Lit.pos 3] := by decide +kernel
  obtain ⟨_, part, _, _, _, left, _, minimal, _⟩ :=
    minimizeCore_is_minimal (ExhaustiveSolver.answersParts (by decide)) holds distinct
  obtain ⟨_, part', _, _, _, left', _, _, unchanged⟩ :=
    minimizeCore_is_minimal (ExhaustiveSolver.answersParts (by decide)) holds distinct'
  obtain rfl : part = [Lit.pos 1, Lit.pos 3] := by
    rw [left] at result
    exact Except.ok.inj result
  obtain ⟨partRefuted, proper, _⟩ := minimal refuted
  refine ⟨holds, distinct, refuted, distinct', consistent, result, partRefuted, proper, ?_⟩
  rw [left', (unchanged consistent).1]

end MaxSat

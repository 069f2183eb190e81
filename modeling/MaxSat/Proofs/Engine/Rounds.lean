import Mathlib.Data.Finset.Powerset
import MaxSat.Engine.Run
import MaxSat.Proofs.Engine.Relaxation
import MaxSat.Proofs.HittingSet.Hitter
import MaxSat.Proofs.Oracle.Minimization

/-!
# Rounds, stages and their ends

`Sound` is the invariant of a run: the oracle encodes the relaxed clauses, and
every recorded core names clauses that no feasible valuation satisfies together.
A round records a further core or ends the stage. The new core avoids a set that
hits all earlier ones, so no two are equal, and a stage ends after fewer rounds
than there are sets of relaxed clauses. All this holds for whichever models and
cores the SAT oracle picks.
-/

namespace MaxSat

/-- Every feasible valuation falsifies one of the clauses that the core names. -/
def Core.Blames (f : Formula) (xs : List Relaxation) (c : Core) : Prop :=
  ∀ ν, f.feasible ν = true → ∃ x ∈ falsified xs ν, x.var ∈ c.vars

/-- Cores that do not contain earlier ones name different sets of variables, and none of them
names the empty set. -/
theorem Core.length_lt_of_new {cores : List Core} {vars : List Nat}
    (new : cores.Pairwise fun old new => ∃ v ∈ old.vars, v ∉ new.vars)
    (nonempty : ∀ c ∈ cores, c.vars ≠ []) (inside : ∀ c ∈ cores, ∀ v ∈ c.vars, v ∈ vars) :
    cores.length < 2 ^ vars.length := by
  let named (c : Core) : Finset Nat := c.vars.toFinset
  have apart : (cores.map named).Nodup := by
    refine List.pairwise_map.mpr (new.imp ?_)
    rintro old new ⟨v, inOld, notNew⟩ same
    refine notNew (List.mem_toFinset.mp ?_)
    change v ∈ named new
    rw [← same]
    exact List.mem_toFinset.mpr inOld
  have subsets : (cores.map named).toFinset ⊆ vars.toFinset.powerset.erase ∅ := by
    intro set mem
    obtain ⟨c, hc, rfl⟩ := List.mem_map.mp (List.mem_toFinset.mp mem)
    refine Finset.mem_erase.mpr ⟨fun empty => nonempty c hc ?_, Finset.mem_powerset.mpr ?_⟩
    · exact List.toFinset_eq_empty_iff _ |>.mp empty
    · intro v hv
      exact List.mem_toFinset.mpr (inside c hc v (List.mem_toFinset.mp hv))
  have count := Finset.card_le_card subsets
  rw [List.toFinset_card_of_nodup apart, List.length_map,
    Finset.card_erase_of_mem (Finset.empty_mem_powerset _), Finset.card_powerset] at count
  have size : 2 ^ vars.toFinset.card ≤ 2 ^ vars.length :=
    Nat.pow_le_pow_right (by decide) (List.toFinset_card_le _)
  have positive : 0 < 2 ^ vars.toFinset.card := Nat.two_pow_pos _
  omega

/-- The cores name relaxed clauses under their weights and blame them rightly; none of them
contains one recorded before it. -/
structure Explains (f : Formula) (xs : List Relaxation) (cores : List Core) : Prop where
  members : ∀ c ∈ cores, ∀ m ∈ c.members, ∃ x ∈ xs, m = (x.var, x.soft.weight)
  blames : ∀ c ∈ cores, c.Blames f xs
  distinct : cores.Pairwise fun old new => ∃ v ∈ old.vars, v ∉ new.vars

namespace Explains

variable {f : Formula} {xs : List Relaxation} {cores : List Core}

theorem nil (f : Formula) (xs : List Relaxation) : Explains f xs [] := ⟨nofun, nofun, .nil⟩

theorem mono {ys : List Relaxation} (subset : xs ⊆ ys) (explains : Explains f xs cores) :
    Explains f ys cores := by
  refine ⟨fun c mem m hm => ?_, fun c mem ν feasible => ?_, explains.distinct⟩
  · obtain ⟨x, hx, eq⟩ := explains.members c mem m hm
    exact ⟨x, subset hx, eq⟩
  · obtain ⟨x, hx, named⟩ := explains.blames c mem ν feasible
    obtain ⟨hx, false_⟩ := mem_falsified.mp hx
    exact ⟨x, mem_falsified.mpr ⟨subset hx, false_⟩, named⟩

theorem vars_mem (explains : Explains f xs cores) {c : Core} (mem : c ∈ cores) {v : Nat}
    (named : v ∈ c.vars) : ∃ x ∈ xs, x.var = v := by
  obtain ⟨m, hm, var⟩ := List.mem_map.mp named
  obtain ⟨x, hx, eq⟩ := explains.members c mem m hm
  exact ⟨x, hx, by rw [← var, eq]⟩

theorem length_lt (explains : Explains f xs cores) (nonempty : ∀ c ∈ cores, c.vars ≠ []) :
    cores.length < 2 ^ xs.length := by
  have inside : ∀ c ∈ cores, ∀ v ∈ c.vars, v ∈ xs.map Relaxation.var := by
    intro c mem v named
    obtain ⟨x, hx, var⟩ := explains.vars_mem mem named
    exact List.mem_map.mpr ⟨x, hx, var⟩
  have few := Core.length_lt_of_new explains.distinct nonempty inside
  rwa [List.length_map] at few

end Explains

theorem Run.coreMembers_spec {kept : List Relaxation} {core : List Lit}
    (assumes : Assumes kept core) :
    ∃ ms, Run.coreMembers kept core = .ok ms ∧
      (∀ m ∈ ms, ∃ x ∈ kept, m = (x.var, x.soft.weight)) ∧
      ∀ v, (∃ m ∈ ms, m.1 = v) ↔ Lit.pos v ∈ core := by
  induction core with
  | nil => exact ⟨[], rfl, nofun, by simp⟩
  | cons l core ih =>
    obtain ⟨ms, eq, members, vars⟩ := ih fun k mem => assumes k (List.mem_cons_of_mem l mem)
    cases found : kept.find? fun x => Lit.pos x.var == l with
    | none =>
      obtain ⟨x, hx, rfl⟩ := assumes l List.mem_cons_self
      have := List.find?_eq_none.mp found x hx
      simp at this
    | some x =>
      have mem : x ∈ kept := List.mem_of_find?_eq_some found
      have lit : Lit.pos x.var = l := by simpa using List.find?_some found
      refine ⟨(x.var, x.soft.weight) :: ms, ?_, ?_, fun v => ?_⟩
      · rw [Run.coreMembers, found]
        simp [eq, Except.map]
      · intro m hm
        rcases List.mem_cons.mp hm with same | hm
        · exact ⟨x, mem, same⟩
        · exact members m hm
      · rw [List.mem_cons, ← vars v, ← lit]
        simp [Lit.pos, eq_comm]

namespace Run

variable {σ : Type} [SatOracle σ] {Holds : σ → List Clause → Prop} {f : Formula} {base : Nat}
  {cores : List Core}

/-- The invariant of a run with exact hitting sets that has recorded the given cores. -/
structure Sound (Holds : σ → List Clause → Prop) (f : Formula) (base : Nat)
    (r : Run σ Hitter) (cores : List Core) : Prop where
  encodes : Encodes Holds f base r.sat r.relaxed
  records : r.hitter.Records cores
  explains : Explains f r.relaxed cores

/-- The SAT oracle's last model is of a feasible valuation that satisfies every relaxed clause
outside of the hitting set. -/
def Settled (f : Formula) (r : Run σ Hitter) : Prop :=
  ∃ ν, f.feasible ν = true ∧ (∀ v, 1 ≤ v → v ≤ f.numVars → SatOracle.value r.sat v = some (ν v)) ∧
    ∀ x ∈ falsified r.relaxed ν, x.var ∈ r.hitter.ask.1

section Calls

variable {r : Run σ Hitter}

omit [SatOracle σ] in
theorem mem_kept {set : List Nat} {x : Relaxation} :
    x ∈ r.kept set ↔ x ∈ r.relaxed ∧ x.var ∉ set := by
  simp [kept]

omit [SatOracle σ] in
theorem kept_subset (r : Run σ Hitter) (set : List Nat) : r.kept set ⊆ r.relaxed :=
  List.filter_subset_self _

omit [SatOracle σ] in
theorem assumes_assumptions (r : Run σ Hitter) (set : List Nat) :
    Assumes (r.kept set) (r.assumptions set) := by
  intro l mem
  obtain ⟨x, hx, lit⟩ := List.mem_map.mp mem
  exact ⟨x, hx, lit.symm⟩

omit [SatOracle σ] in
theorem nodup_assumptions (distinct : (r.relaxed.map Relaxation.var).Nodup) (set : List Nat) :
    (r.assumptions set).Nodup := by
  have vars : ((r.kept set).map Relaxation.var).Nodup :=
    distinct.sublist (List.filter_sublist.map _)
  have same : r.assumptions set = ((r.kept set).map Relaxation.var).map Lit.pos := by
    rw [assumptions, List.map_map]
    rfl
  rw [same]
  exact vars.map fun a b same => congrArg Lit.var same

/-- The hitting set of a sound run meets every core and names relaxed clauses only. Asking
again would give it again. -/
theorem Sound.getSet (sound : r.Sound Holds f base cores) :
    ∃ set r', r.getSet = (set, r') ∧ r'.Sound Holds f base cores ∧ r'.relaxed = r.relaxed ∧
      r'.hitter.ask.1 = set ∧ (∀ c ∈ cores, ∃ v ∈ c.vars, v ∈ set) ∧
      (set.find? fun v => (r'.relaxation? v).isNone) = none := by
  refine ⟨r.hitter.ask.1, r.getSet.2, rfl, ⟨sound.encodes, sound.records.ask, sound.explains⟩, rfl,
    ?_, fun c mem => sound.records.ask_hits mem, List.find?_eq_none.mpr fun v mem => ?_⟩
  · change r.hitter.ask.2.ask.1 = r.hitter.ask.1
    rw [sound.records.ask.ask_eq, sound.records.ask_eq]
  · obtain ⟨c, hc, named⟩ := sound.records.ask_members mem
    obtain ⟨x, hx, var⟩ := sound.explains.vars_mem hc named
    have found : (r.getSet.2.relaxation? v).isSome :=
      List.find?_isSome.mpr ⟨x, hx, by simpa using var⟩
    simpa using Option.isSome_iff_ne_none.mp found

/-- Assumptions in use are answered rightly, and nothing but the oracle's state changes. -/
theorem Sound.ask (conforming : Conforming σ Holds) (sound : r.Sound Holds f base cores)
    {ls : List Lit} (distinct : ls.Nodup) (inUse : InUse (SatOracle.numVars r.sat) ls) :
    ∃ reply r', r.ask ls = (reply, r') ∧ r'.Sound Holds f base cores ∧ r'.relaxed = r.relaxed ∧
      r'.hitter = r.hitter ∧
      reply.Right (f.store r.relaxed) ls (SatOracle.numVars r.sat) (SatOracle.value r'.sat) := by
  have encodes := sound.encodes
  obtain ⟨holds, same, right⟩ := conforming.solve encodes.holds distinct inUse
  exact ⟨_, _, rfl, ⟨⟨holds, same.trans encodes.numVars, encodes.vars, encodes.softs⟩,
    sound.records, sound.explains⟩, rfl, rfl, right⟩

theorem Sound.shrink (conforming : Conforming σ Holds) (sound : r.Sound Holds f base cores)
    (o : RunOptions) {core : List Lit} (distinct : core.Nodup)
    (assumes : Assumes r.relaxed core) (refuted : ¬ Consistent (f.store r.relaxed) core) :
    ∃ part r', r.shrink o core = (.ok part, r') ∧ r'.Sound Holds f base cores ∧
      r'.relaxed = r.relaxed ∧ part.Sublist core ∧ ¬ Consistent (f.store r.relaxed) part := by
  let Valid (r' : Run σ Hitter) : Prop :=
    r'.Sound Holds f base cores ∧ r'.relaxed = r.relaxed
  have right : AnswersParts Run.ask Valid (f.store r.relaxed) core := by
    rintro r' ls ⟨sound', same⟩ sublist
    have assumed : Assumes r'.relaxed ls := fun l mem => same ▸ assumes l (sublist.mem mem)
    obtain ⟨reply, next, eq, nextSound, unchanged, _, answer⟩ :=
      sound'.ask conforming (distinct.sublist sublist) (sound'.encodes.inUse assumed)
    rw [same] at answer
    rw [eq]
    exact ⟨⟨nextSound, unchanged.trans same⟩, answer.truthful⟩
  rw [Run.shrink]
  split
  · obtain ⟨part, r', eq, ⟨sound', same⟩, sublist, partRefuted⟩ :=
      minimizeFrom_spec right (o.rounds + core.length + 1) (i := 0) ⟨sound, rfl⟩ distinct
        refuted (by omega)
    exact ⟨part, r', eq, sound', same, sublist, partRefuted⟩
  · exact ⟨core, r, rfl, sound, rfl, .refl core, refuted⟩

/-- A core of clauses outside of a set that hits the earlier cores can be recorded. -/
theorem Sound.record (fits : f.Fits base) (sound : r.Sound Holds f base cores) {set : List Nat}
    (hitting : ∀ c ∈ cores, ∃ v ∈ c.vars, v ∈ set) {core : List Lit}
    (assumes : Assumes (r.kept set) core) (nonempty : core ≠ [])
    (refuted : ¬ Consistent (f.store r.relaxed) core) {ms : List (Nat × Weight)}
    (members : ∀ m ∈ ms, ∃ x ∈ r.kept set, m = (x.var, x.soft.weight))
    (vars : ∀ v, (∃ m ∈ ms, m.1 = v) ↔ Lit.pos v ∈ core) :
    (r.record (Core.ofMembers ms)).Sound Holds f base (cores ++ [Core.ofMembers ms]) := by
  have named {v : Nat} : v ∈ (Core.ofMembers ms).vars ↔ Lit.pos v ∈ core :=
    Core.mem_vars_ofMembers.trans (vars v)
  have outside : ∀ v ∈ (Core.ofMembers ms).vars, v ∉ set := by
    intro v mem
    obtain ⟨x, hx, lit⟩ := assumes _ (named.mp mem)
    have var : v = x.var := congrArg Lit.var lit
    exact var ▸ (mem_kept.mp hx).2
  have some_ : (Core.ofMembers ms).vars ≠ [] := by
    obtain ⟨l, mem⟩ := List.exists_mem_of_ne_nil core nonempty
    obtain ⟨x, _, lit⟩ := assumes l mem
    exact List.ne_nil_of_mem (named.mpr (lit ▸ mem))
  refine ⟨sound.encodes, sound.records.hit some_, ⟨?_, ?_, ?_⟩⟩
  · intro c mem m hm
    rcases List.mem_append.mp mem with mem | mem
    · exact sound.explains.members c mem m hm
    · rw [List.mem_singleton.mp mem] at hm
      obtain ⟨x, hx, eq⟩ := members m (Core.mem_of_mem_ofMembers hm)
      exact ⟨x, (mem_kept.mp hx).1, eq⟩
  · intro c mem ν feasible
    rcases List.mem_append.mp mem with mem | mem
    · exact sound.explains.blames c mem ν feasible
    · obtain ⟨x, hx, lit⟩ := sound.encodes.exists_falsified fits (assumes.mono (r.kept_subset set))
        refuted feasible
      exact ⟨x, hx, List.mem_singleton.mp mem ▸ named.mpr lit⟩
  · refine List.pairwise_append.mpr ⟨sound.explains.distinct, List.pairwise_singleton _ _, ?_⟩
    intro old mem new same
    obtain ⟨v, inOld, inSet⟩ := hitting old mem
    exact ⟨v, inOld, fun inNew => outside v (List.mem_singleton.mp same ▸ inNew) inSet⟩

end Calls

/-- What a round can do: record one more core, or end the stage with a model or with the
knowledge that there is none. It never fails. -/
inductive Advances (Holds : σ → List Clause → Prop) (f : Formula) (base : Nat)
    (xs : List Relaxation) (cores : List Core) : Step × Run σ Hitter → Prop
  | again {r : Run σ Hitter} (c : Core) (sound : r.Sound Holds f base (cores ++ [c]))
      (same : r.relaxed = xs) : Advances Holds f base xs cores (.again, r)
  | settled {r : Run σ Hitter} (sound : r.Sound Holds f base cores) (same : r.relaxed = xs)
      (settled : r.Settled f) : Advances Holds f base xs cores (.ended .settled, r)
  | infeasible {r : Run σ Hitter} (none_ : ∀ ν, f.feasible ν = false) :
      Advances Holds f base xs cores (.ended .infeasible, r)

theorem learn_advances (conforming : Conforming σ Holds) (fits : f.Fits base)
    {r : Run σ Hitter} (sound : r.Sound Holds f base cores) (o : RunOptions) {set : List Nat}
    (hitting : ∀ c ∈ cores, ∃ v ∈ c.vars, v ∈ set) {core : List Lit} (distinct : core.Nodup)
    (assumes : Assumes (r.kept set) core) (refuted : ¬ Consistent (f.store r.relaxed) core) :
    Advances Holds f base r.relaxed cores (r.learn o (r.kept set) core) := by
  obtain ⟨part, r', eq, sound', same, sublist, partRefuted⟩ :=
    sound.shrink conforming o distinct (assumes.mono (r.kept_subset set)) refuted
  have partAssumes : Assumes (r.kept set) part := fun l mem => assumes l (sublist.mem mem)
  rw [Run.learn]
  rw [eq]
  cases part with
  | nil =>
    refine .infeasible fun ν => Bool.eq_false_iff.mpr fun feasible => ?_
    obtain ⟨x, _, none_⟩ := sound.encodes.exists_falsified fits
      (partAssumes.mono (r.kept_subset set)) partRefuted feasible
    cases none_
  | cons l part =>
    obtain ⟨ms, membersEq, members, vars⟩ := coreMembers_spec partAssumes
    have kept : r'.kept set = r.kept set := by rw [Run.kept, Run.kept, same]
    dsimp only
    rw [membersEq]
    rw [← kept] at partAssumes members
    rw [← same] at partRefuted
    exact .again _ (sound'.record fits hitting partAssumes (List.cons_ne_nil l part) partRefuted
      members vars) same

/-- A model under the assumptions settles the stage. -/
theorem settled_of_model {r : Run σ Hitter} (fits : f.Fits base)
    (sound : r.Sound Holds f base cores) {ν : Valuation}
    (clauses : ∀ c ∈ f.store r.relaxed, Clause.holds ν c = true)
    (literals : ∀ l ∈ r.assumptions r.hitter.ask.1, l.holds ν = true)
    (values : ∀ v, 1 ≤ v → v ≤ SatOracle.numVars r.sat → SatOracle.value r.sat v = some (ν v)) :
    r.Settled f := by
  refine ⟨ν, Encodes.feasible_of_model clauses, fun v one le => values v one ?_, ?_⟩
  · have := fits.above
    rw [sound.encodes.numVars]
    omega
  · intro x mem
    obtain ⟨relaxed, false_⟩ := mem_falsified.mp mem
    by_contra outside
    have assumed : Lit.pos x.var ∈ r.assumptions r.hitter.ask.1 :=
      List.mem_map_of_mem (mem_kept.mpr ⟨relaxed, outside⟩)
    rw [Encodes.soft_of_model clauses relaxed (literals _ assumed)] at false_
    cases false_

theorem round_advances (conforming : Conforming σ Holds) (fits : f.Fits base)
    {r : Run σ Hitter} (sound : r.Sound Holds f base cores) (o : RunOptions) :
    Advances Holds f base r.relaxed cores (r.round o) := by
  obtain ⟨set, r₁, setEq, sound₁, relaxed₁, again, hitting, known⟩ := sound.getSet
  have assumes := r₁.assumes_assumptions set
  obtain ⟨reply, r₂, askEq, sound₂, relaxed₂, hitter, answer⟩ :=
    sound₁.ask conforming (nodup_assumptions sound₁.encodes.distinct set)
      (sound₁.encodes.inUse (assumes.mono (r₁.kept_subset set)))
  have kept : r₂.kept set = r₁.kept set := by rw [Run.kept, Run.kept, relaxed₂]
  rw [Run.round, setEq]
  dsimp only
  rw [known]
  dsimp only
  rw [askEq, ← relaxed₁, ← relaxed₂]
  rw [← relaxed₂] at answer
  cases answer with
  | sat ν clauses literals values =>
    refine .settled sound₂ rfl (settled_of_model fits sound₂ clauses ?_ fun v one le => ?_)
    · rw [hitter, again, Run.assumptions, kept]
      exact literals
    · refine values v one ?_
      rwa [sound₁.encodes.numVars, ← relaxed₂, ← sound₂.encodes.numVars]
  | unsat core distinct subset refuted =>
    rw [← kept] at assumes
    exact learn_advances conforming fits sound₂ o hitting distinct
      (fun l mem => assumes l (subset l mem)) refuted

/-- How a stage can end once the given soft clauses have entered: settled, or without any
feasible valuation. -/
inductive Concludes (Holds : σ → List Clause → Prop) (f : Formula) (base : Nat)
    (entered : List SoftClause) : Ending × Run σ Hitter → Prop
  | settled {r : Run σ Hitter} (cores : List Core) (sound : r.Sound Holds f base cores)
      (relaxed : r.relaxed.map Relaxation.soft = entered) (settled : r.Settled f) :
      Concludes Holds f base entered (.settled, r)
  | infeasible {r : Run σ Hitter} (none_ : ∀ ν, f.feasible ν = false) :
      Concludes Holds f base entered (.infeasible, r)

/-- Each round adds a core and there are fewer cores than sets of relaxed clauses, so rounds
for the missing ones are enough. -/
theorem converge_concludes (conforming : Conforming σ Holds) (fits : f.Fits base)
    (o : RunOptions) (n : Nat) {r : Run σ Hitter} (sound : r.Sound Holds f base cores)
    (enough : 2 ^ r.relaxed.length ≤ n + cores.length) :
    Concludes Holds f base (r.relaxed.map Relaxation.soft) (converge o n r) := by
  induction n generalizing r cores with
  | zero =>
    have few := sound.explains.length_lt sound.records.nonempty
    omega
  | succ n ih =>
    have step := round_advances conforming fits sound o
    rw [converge]
    generalize r.round o = next at step
    cases step with
    | again c sound' same =>
      rw [← same]
      refine ih sound' ?_
      rw [same, List.length_append, List.length_singleton]
      omega
    | settled sound' same settled => exact .settled cores sound' (by rw [same]) settled
    | infeasible none_ => exact .infeasible none_

theorem Sound.relax (conforming : Conforming σ Holds) (fits : f.Fits base) {r : Run σ Hitter}
    (sound : r.Sound Holds f base cores) {s : SoftClause}
    (next : r.relaxed.map Relaxation.soft ++ [s] <+: f.soft) :
    (r.relax s).Sound Holds f base cores :=
  ⟨sound.encodes.relax conforming fits next, sound.records,
    sound.explains.mono (List.subset_append_left _ _)⟩

theorem Sound.foldl_relax (conforming : Conforming σ Holds) (fits : f.Fits base)
    {batch : List SoftClause} {r : Run σ Hitter} (sound : r.Sound Holds f base cores)
    (next : r.relaxed.map Relaxation.soft ++ batch <+: f.soft) :
    (batch.foldl Run.relax r).Sound Holds f base cores ∧
      (batch.foldl Run.relax r).relaxed.map Relaxation.soft =
        r.relaxed.map Relaxation.soft ++ batch := by
  induction batch generalizing r with
  | nil => exact ⟨sound, by simp⟩
  | cons s batch ih =>
    have entered : (r.relax s).relaxed.map Relaxation.soft =
        r.relaxed.map Relaxation.soft ++ [s] := List.map_append
    have split : r.relaxed.map Relaxation.soft ++ s :: batch =
        r.relaxed.map Relaxation.soft ++ [s] ++ batch := by simp
    rw [split] at next ⊢
    have first := sound.relax conforming fits ((List.prefix_append _ batch).trans next)
    rw [← entered] at next ⊢
    exact ih first next

theorem stages_concludes (conforming : Conforming σ Holds) (fits : f.Fits base)
    {o : RunOptions} (enough : 2 ^ f.soft.length ≤ o.rounds) {batches : List (List SoftClause)}
    {r : Run σ Hitter} (sound : r.Sound Holds f base cores)
    (rest : r.relaxed.map Relaxation.soft ++ batches.flatten = f.soft)
    (last : batches = [] → r.Settled f) : Concludes Holds f base f.soft (stages o batches r) := by
  induction batches generalizing r cores with
  | nil => exact .settled cores sound (by simpa using rest) (last rfl)
  | cons batch batches ih =>
    rw [List.flatten_cons, ← List.append_assoc] at rest
    obtain ⟨sound', entered⟩ := sound.foldl_relax conforming fits ⟨_, rest⟩
    have rounds : 2 ^ (batch.foldl Run.relax r).relaxed.length ≤ o.rounds + cores.length := by
      have le := Nat.pow_le_pow_right (n := 2) (by decide) sound'.encodes.length_le
      omega
    have stage := converge_concludes conforming fits o o.rounds sound' rounds
    rw [stages, Run.stage]
    generalize converge o o.rounds (batch.foldl Run.relax r) = ended at stage
    cases stage with
    | settled cores' sound'' relaxed settled =>
      refine ih sound'' ?_ fun _ => settled
      rw [relaxed, entered]
      exact rest
    | infeasible none_ => exact .infeasible none_

end Run

end MaxSat

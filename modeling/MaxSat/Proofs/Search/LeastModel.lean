import MaxSat.Proofs.Search.Propagation

/-!
# The search finds the least model

Valuations are compared from variable 1 upwards with `false` before `true`. The
search branches on the first variable without a value and tries `false` first, so
whatever it finds comes before every other model that agrees with the values it
started from; if it finds nothing there is no such model. Both halves need that
every literal of the store has a variable in use: variable 0 is never branched
on, and a variable past the width can have no value.
-/

namespace MaxSat

/-- Reading from variable 1 up to `n`, `false` before `true`, `μ` is equal to `ν` or comes
before it. -/
def LexLe (n : Nat) (μ ν : Valuation) : Prop :=
  (∀ v, 1 ≤ v → v ≤ n → μ v = ν v) ∨
    ∃ v, 1 ≤ v ∧ v ≤ n ∧ (∀ u, 1 ≤ u → u < v → μ u = ν u) ∧ μ v = false ∧ ν v = true

/-- A valuation with fewer true variables comes first. -/
theorem lexLe_of_subset {n : Nat} {μ ν : Valuation}
    (subset : ∀ v, 1 ≤ v → v ≤ n → μ v = true → ν v = true) : LexLe n μ ν := by
  induction n with
  | zero => exact Or.inl fun v h1 h0 => by omega
  | succ n ih =>
    rcases ih fun v h1 hn => subset v h1 (by omega) with same | ⟨v, h1, hn, before, hμ, hν⟩
    · by_cases last : μ (n + 1) = ν (n + 1)
      · left
        intro v h1 hn
        by_cases hv : v = n + 1
        · exact hv ▸ last
        · exact same v h1 (by omega)
      · have hμ : μ (n + 1) = false := by
          refine Bool.eq_false_iff.mpr fun h => last ?_
          rw [h, subset (n + 1) (by omega) (by omega) h]
        have hν : ν (n + 1) = true := by simpa [hμ] using last
        exact Or.inr ⟨n + 1, by omega, by omega,
          fun u h1 hu => same u h1 (by omega), hμ, hν⟩
    · exact Or.inr ⟨v, h1, by omega, before, hμ, hν⟩

/-- Every literal of the store has a variable in use. -/
def Cnf.Proper (f : Cnf) : Prop :=
  ∀ c ∈ f.clauses, ∀ l ∈ c, 1 ≤ l.var ∧ l.var ≤ f.numVars

/-- Stores as calls make them from literals that have an id. -/
inductive Cnf.Made : Cnf → Prop
  | ofVars {n : Nat} (room : n ≤ lastId) : Made (Cnf.ofVars n)
  | freshVar {f : Cnf} (made : Made f) : Made f.freshVar.2
  | addClause {f : Cnf} {c : Clause} (made : Made f)
      (ids : ∀ l ∈ c, 1 ≤ l.var ∧ l.var ≤ lastId) : Made (f.addClause c)

theorem Cnf.Proper.addClause {f : Cnf} (proper : f.Proper) {c : Clause}
    (positive : ∀ l ∈ c, 1 ≤ l.var) : (f.addClause c).Proper := by
  intro d mem l hl
  simp only [Cnf.addClause, List.mem_append, List.mem_singleton] at mem ⊢
  rcases mem with mem | same
  · have := proper d mem l hl
    omega
  · subst same
    have := Clause.le_maxVar hl
    have := positive l hl
    omega

theorem Cnf.Proper.mono {f g : Cnf} (proper : f.Proper) (clauses : g.clauses = f.clauses)
    (more : f.numVars ≤ g.numVars) : g.Proper := by
  intro c mem l hl
  have := proper c (clauses ▸ mem) l hl
  omega

theorem Cnf.Made.proper {f : Cnf} (made : f.Made) : f.Proper ∧ f.numVars ≤ lastId := by
  induction made with
  | ofVars room => exact ⟨(nofun), room⟩
  | freshVar _ ih =>
    obtain ⟨proper, room⟩ := ih
    exact ⟨proper.mono rfl (Nat.le_min.mpr ⟨by omega, room⟩), Nat.min_le_right _ _⟩
  | addClause _ ids ih =>
    refine ⟨ih.1.addClause fun l mem => (ids l mem).1, ?_⟩
    exact Nat.max_le.mpr ⟨ih.2, Clause.maxVar_le fun l mem => (ids l mem).2⟩

namespace Search

/-- `b` completes to the least model of the store that agrees with `a`. -/
structure Least (f : Cnf) (a b : Assignment) : Prop where
  size : b.size = a.size
  zero : b.value 0 = a.value 0
  within : a.Within b
  model : f.holds (valuation b.complete) = true
  least : ∀ ν, a.Agrees ν → f.holds ν = true → LexLe (a.size - 1) (valuation b.complete) ν

/-- A right answer to a search from `a`: the least model, or nothing if there is none. -/
def Answers (f : Cnf) (a : Assignment) : Option Assignment → Prop
  | none => ∀ ν, a.Agrees ν → f.holds ν = false
  | some b => Least f a b

/-- Every variable below `k` has a value, variable 0 apart. -/
def DecidedBelow (k : Nat) (a : Assignment) : Prop :=
  ∀ u, 1 ≤ u → u < k → a.value u ≠ none

theorem DecidedBelow.within {k : Nat} {a b : Assignment} (decided : DecidedBelow k a)
    (within : a.Within b) : DecidedBelow k b := by
  intro u h1 hk
  obtain ⟨x, hx⟩ := Option.ne_none_iff_exists'.mp (decided u h1 hk)
  simp [within u x hx]

/-- Forced values change no answer. -/
theorem Answers.of_forces {f : Cnf} {a b : Assignment} {r : Option Assignment} (proper : f.Proper)
    (forces : Forces f.clauses a b) (answers : Answers f b r) : Answers f a r := by
  cases r with
  | none =>
    intro ν agrees
    cases holds : f.holds ν with
    | false => rfl
    | true =>
      have after := (forces.agrees_iff (Cnf.holds_iff.mp holds)).mp agrees
      exact holds.symm.trans (answers ν after)
  | some m =>
    obtain ⟨size, zero, within, model, least⟩ := answers
    have untouched : b.value 0 = a.value 0 := by
      refine forces.frame 0 fun c mem l hl => ?_
      have := proper c mem l hl
      omega
    refine ⟨size.trans forces.size, zero.trans untouched, forces.within.trans within, model, ?_⟩
    intro ν agrees holds
    have after := (forces.agrees_iff (Cnf.holds_iff.mp holds)).mp agrees
    simpa only [forces.size] using least ν after holds

/-- An assignment that makes every clause true is completed with `false`. -/
theorem least_of_status {f : Cnf} {a : Assignment} (status : f.status a = some true) :
    Least f a a where
  size := rfl
  zero := rfl
  within := .refl a
  model := Cnf.holds_of_status a.agrees_complete status
  least ν agrees _ := by
    apply lexLe_of_subset
    intro v _ _ hv
    rw [Assignment.valuation_complete] at hv
    cases value : a.value v with
    | none => simp [value] at hv
    | some b => simpa [value] using (agrees v b value).trans (by simpa [value] using hv)

theorem settle_answers {f : Cnf} (proper : f.Proper) {next : Assignment → Option Assignment}
    {a : Assignment}
    (goesOn : ∀ b, b.size = a.size → a.Within b → f.status b = none → Answers f b (next b)) :
    Answers f a (settle f next a) := by
  rw [settle]
  split
  · rename_i conflict
    exact fun ν agrees => propagate_refutes conflict agrees
  · rename_i b done
    have forces := propagate_some done
    refine Answers.of_forces proper forces ?_
    split
    · rename_i status
      exact least_of_status status
    · rename_i status
      exact fun ν agrees => Cnf.holds_of_status agrees status
    · rename_i status
      exact goesOn b forces.size forces.within status

/-- The first free variable gets its least possible value. All variables below it are
decided, so a model with `false` there comes before every model with `true`. -/
theorem branch_step {f : Cnf} {a : Assignment} {v : Nat} {r₀ r₁ : Option Assignment}
    (positive : 1 ≤ v) (inside : v < a.size) (free : a.value v = none)
    (decided : DecidedBelow v a) (low : Answers f (a.assign v false) r₀)
    (high : Answers f (a.assign v true) r₁) : Answers f a (r₀.or r₁) := by
  have split : ∀ ν b, a.Agrees ν → ν v = b → (a.assign v b).Agrees ν := fun ν b agrees same =>
    (Assignment.agrees_assign_iff inside free).mpr ⟨agrees, same⟩
  have zero : ∀ b, (a.assign v b).value 0 = a.value 0 := fun b =>
    Assignment.value_assign_of_ne a b (by omega)
  cases r₀ with
  | some m =>
    refine ⟨by simpa using low.size, low.zero.trans (zero false),
      (Assignment.within_assign false free).trans low.within, low.model, ?_⟩
    intro ν agrees holds
    cases hv : ν v with
    | false => simpa using low.least ν (split ν false agrees hv) holds
    | true =>
      right
      refine ⟨v, positive, by omega, ?_, ?_, hv⟩
      · intro u h1 hu
        obtain ⟨x, hx⟩ := Option.ne_none_iff_exists'.mp (decided u h1 hu)
        have kept := low.within u x (Assignment.within_assign false free u x hx)
        rw [Assignment.valuation_complete, kept, agrees u x hx]
        rfl
      · have kept := low.within v false (Assignment.value_assign_self false inside)
        rw [Assignment.valuation_complete, kept]
        rfl
  | none =>
    have high_of : ∀ ν, a.Agrees ν → f.holds ν = true → (a.assign v true).Agrees ν := by
      intro ν agrees holds
      cases hv : ν v with
      | false =>
        have := low ν (split ν false agrees hv)
        rw [holds] at this
        cases this
      | true => exact split ν true agrees hv
    cases r₁ with
    | none =>
      intro ν agrees
      cases holds : f.holds ν with
      | false => rfl
      | true => exact holds.symm.trans (high ν (high_of ν agrees holds))
    | some m =>
      refine ⟨by simpa using high.size, high.zero.trans (zero true),
        (Assignment.within_assign true free).trans high.within, high.model, ?_⟩
      intro ν agrees holds
      simpa using high.least ν (high_of ν agrees holds) holds

theorem branch_answers {f : Cnf} (proper : f.Proper) (n k : Nat) (a : Assignment)
    (size : a.size = k + n) (wide : f.numVars < a.size) (positive : 1 ≤ k)
    (decided : DecidedBelow k a) (status : f.status a = none) :
    Answers f a (branch f (List.range' k n) a) := by
  induction n generalizing k a with
  | zero =>
    -- all variables have a value, so the store cannot be undecided
    obtain ⟨c, mem, l, hl, free⟩ := Cnf.open_of_status status
    have ids := proper c mem l hl
    exact absurd free (decided l.var ids.1 (by omega))
  | succ n ih =>
    rw [List.range'_succ, branch]
    split
    · rename_i known
      refine ih (k + 1) a (by omega) wide (by omega) ?_ status
      intro u h1 hu
      by_cases same : u = k
      · subst same
        exact Option.isSome_iff_ne_none.mp known
      · exact decided u h1 (by omega)
    · rename_i unknown
      have free : a.value k = none := by simpa using unknown
      have inside : k < a.size := by omega
      have child : ∀ b, Answers f (a.assign k b)
          (settle f (branch f (List.range' (k + 1) n)) (a.assign k b)) := by
        intro b
        refine settle_answers proper fun d dsize within dstatus => ?_
        rw [Assignment.size_assign] at dsize
        refine ih (k + 1) d (by omega) (by omega) (by omega) ?_ dstatus
        refine DecidedBelow.within ?_ within
        intro u h1 hu
        by_cases same : u = k
        · subst same
          simp [Assignment.value_assign_self b inside]
        · rw [Assignment.value_assign_of_ne a b same]
          exact decided u h1 (by omega)
      exact branch_step positive inside free decided (child false) (child true)

/-- A search over all variables from the first one on. -/
theorem settle_branch_answers {f : Cnf} (proper : f.Proper) {a : Assignment}
    (wide : f.numVars < a.size) :
    Answers f a (settle f (branch f (List.range' 1 (a.size - 1))) a) := by
  refine settle_answers proper fun b size _ status => ?_
  have none_ : DecidedBelow 1 b := fun u positive below => by omega
  exact branch_answers proper _ 1 b (by omega) (by omega) (by omega) none_ status

theorem assume_some {ls : List Lit} {a b : Assignment}
    (ids : ∀ l ∈ ls, 1 ≤ l.var ∧ l.var < a.size) (h : assume ls a = some b) :
    b.size = a.size ∧ b.value 0 = a.value 0 ∧
      ∀ ν, b.Agrees ν ↔ a.Agrees ν ∧ ∀ l ∈ ls, l.holds ν = true := by
  induction ls generalizing a with
  | nil =>
    cases h
    simp
  | cons l ls ih =>
    have idsRest : ∀ k ∈ ls, 1 ≤ k.var ∧ k.var < a.size := fun k mem => ids k (by simp [mem])
    obtain ⟨positive, inside⟩ := ids l (by simp)
    rw [assume] at h
    cases value : a.value l.var with
    | some x =>
      simp only [value] at h
      split at h
      · rename_i same
        obtain ⟨size, zero, agrees⟩ := ih idsRest h
        refine ⟨size, zero, fun ν => (agrees ν).trans ?_⟩
        simp only [List.mem_cons, forall_eq_or_imp]
        have first : a.Agrees ν → l.holds ν = true := fun agrees => by
          rw [Lit.holds, agrees l.var x value]
          exact same
        exact ⟨fun h => ⟨h.1, first h.1, h.2⟩, fun h => ⟨h.1, h.2.2⟩⟩
      · cases h
    | none =>
      simp only [value] at h
      obtain ⟨size, zero, agrees⟩ := ih (by simpa using idsRest) h
      refine ⟨by simpa using size, ?_, fun ν => (agrees ν).trans ?_⟩
      · rw [zero]
        exact Assignment.value_assign_of_ne a _ (by omega)
      · rw [Assignment.agrees_assign_iff inside value]
        simp [Lit.holds, and_assoc]

theorem assume_none {ls : List Lit} {a : Assignment}
    (ids : ∀ l ∈ ls, 1 ≤ l.var ∧ l.var < a.size) (h : assume ls a = none) {ν : Valuation}
    (agrees : a.Agrees ν) : ∃ l ∈ ls, l.holds ν = false := by
  induction ls generalizing a with
  | nil => cases h
  | cons l ls ih =>
    have idsRest : ∀ k ∈ ls, 1 ≤ k.var ∧ k.var < a.size := fun k mem => ids k (by simp [mem])
    rw [assume] at h
    cases value : a.value l.var with
    | some x =>
      simp only [value] at h
      split at h
      · obtain ⟨k, mem, hk⟩ := ih idsRest h agrees
        exact ⟨k, by simp [mem], hk⟩
      · rename_i differs
        refine ⟨l, by simp, ?_⟩
        rw [Lit.holds, agrees l.var x value]
        simpa using differs
    | none =>
      simp only [value] at h
      cases hl : l.holds ν with
      | false => exact ⟨l, by simp, hl⟩
      | true =>
        have same : ν l.var = l.positive := by simpa [Lit.holds] using hl
        obtain ⟨k, mem, hk⟩ := ih (by simpa using idsRest) h (Assignment.agrees_assign agrees same)
        exact ⟨k, by simp [mem], hk⟩

/-- A model of the store in which every assumption holds. -/
def Satisfies (f : Cnf) (assumptions : List Lit) (ν : Valuation) : Prop :=
  f.holds ν = true ∧ ∀ l ∈ assumptions, l.holds ν = true

theorem value_replicate (w v : Nat) : Assignment.value (Array.replicate w none) v = none := by
  by_cases inside : v < w
  · simp [Assignment.value, Array.getD_eq_getD_getElem?, inside]
  · simp [Assignment.value, Array.getD_eq_getD_getElem?, inside]

theorem agrees_replicate (w : Nat) (ν : Valuation) :
    Assignment.Agrees (Array.replicate w none) ν := by
  intro v b h
  rw [value_replicate] at h
  cases h

/-- The model that a search returns. -/
structure LeastModel (f : Cnf) (assumptions : List Lit) (m : Array Bool) : Prop where
  size : m.size = width f assumptions
  zero : valuation m 0 = false
  satisfies : Satisfies f assumptions (valuation m)
  least : ∀ ν, Satisfies f assumptions ν → LexLe (width f assumptions - 1) (valuation m) ν

theorem model?_spec {f : Cnf} {assumptions : List Lit} (proper : f.Proper)
    (positive : ∀ l ∈ assumptions, 1 ≤ l.var) :
    match model? f assumptions with
    | none => ∀ ν, ¬ Satisfies f assumptions ν
    | some m => LeastModel f assumptions m := by
  have ids : ∀ l ∈ assumptions, 1 ≤ l.var ∧
      l.var < (Array.replicate (width f assumptions) (none : Option Bool)).size := by
    intro l mem
    have := Clause.le_maxVar mem
    simp only [Array.size_replicate, width]
    exact ⟨positive l mem, by omega⟩
  rw [model?]
  cases start : assume assumptions (Array.replicate (width f assumptions) none) with
  | none =>
    simp only
    rintro ν ⟨_, hold⟩
    obtain ⟨l, mem, hl⟩ := assume_none ids start (agrees_replicate _ ν)
    rw [hold l mem] at hl
    cases hl
  | some a =>
    obtain ⟨size, zero, agrees⟩ := assume_some ids start
    rw [Array.size_replicate] at size
    rw [value_replicate] at zero
    have wide : f.numVars < a.size := by
      rw [size, width]
      omega
    have answers := settle_branch_answers proper wide
    rw [size] at answers
    cases found : settle f (branch f (List.range' 1 (width f assumptions - 1))) a with
    | none =>
      rw [found] at answers
      simp only [found, Option.map_none]
      rintro ν ⟨holds, hold⟩
      have := answers ν ((agrees ν).mpr ⟨agrees_replicate _ ν, hold⟩)
      rw [holds] at this
      cases this
    | some b =>
      rw [found] at answers
      obtain ⟨bsize, bzero, within, model, least⟩ := answers
      simp only [found, Option.map_some]
      refine ⟨?_, ?_, ⟨model, ?_⟩, ?_⟩
      · simpa [Assignment.complete, size] using bsize
      · rw [Assignment.valuation_complete, bzero, zero]
        rfl
      · exact ((agrees _).mp (within.agrees b.agrees_complete)).2
      · rintro ν ⟨holds, hold⟩
        rw [← size]
        exact least ν ((agrees ν).mpr ⟨agrees_replicate _ ν, hold⟩) holds

theorem leastModel_of_model? {f : Cnf} {assumptions : List Lit} {m : Array Bool}
    (proper : f.Proper) (positive : ∀ l ∈ assumptions, 1 ≤ l.var)
    (found : model? f assumptions = some m) : LeastModel f assumptions m := by
  simpa [found] using model?_spec proper positive

theorem model?_eq_none_iff {f : Cnf} {assumptions : List Lit} (proper : f.Proper)
    (positive : ∀ l ∈ assumptions, 1 ≤ l.var) :
    model? f assumptions = none ↔ ¬ ∃ ν, Satisfies f assumptions ν := by
  have spec := model?_spec proper positive
  cases found : model? f assumptions with
  | none =>
    rw [found] at spec
    simpa using spec
  | some m =>
    rw [found] at spec
    simpa using ⟨_, spec.satisfies⟩

/-- The search answers `none` exactly if nothing satisfies the store under the assumptions.
Otherwise its answer has a place for every variable of either, leaves variable 0 false, and
is the least of all valuations that satisfy them. -/
theorem model?_is_least_model {f : Cnf} (made : f.Made) {assumptions : List Lit}
    (positive : ∀ l ∈ assumptions, 1 ≤ l.var) :
    (model? f assumptions = none ↔ ¬ ∃ ν, Satisfies f assumptions ν) ∧
      ∀ m, model? f assumptions = some m →
        m.size = max f.numVars (Clause.maxVar assumptions) + 1 ∧ m[0]? = some false ∧
        Satisfies f assumptions (valuation m) ∧
        ∀ ν, Satisfies f assumptions ν → LexLe (m.size - 1) (valuation m) ν := by
  have proper := made.proper.1
  refine ⟨model?_eq_none_iff proper positive, fun m found => ?_⟩
  obtain ⟨size, zero, satisfies, least⟩ := leastModel_of_model? proper positive found
  have inside : 0 < m.size := by
    rw [size, width]
    omega
  refine ⟨size, ?_, satisfies, ?_⟩
  · simpa [valuation, Array.getD_eq_getD_getElem?, inside] using zero
  · rwa [size]

/-- A repeated literal is not propagated, so the second clause is branched on; the assumed
variable is not in use. -/
theorem model?_is_least_model_branching :
    let f := ((Cnf.ofVars 0).addClause [Lit.pos 1, Lit.pos 2]).addClause [Lit.neg 2, Lit.neg 2]
    let m := #[false, true, false, false, true]
    f.Made ∧ model? f [Lit.pos 4] = some m ∧ Satisfies f [Lit.pos 4] (valuation m) ∧
      ∀ ν, Satisfies f [Lit.pos 4] ν → LexLe 4 (valuation m) ν := by
  intro f m
  have made : f.Made := .addClause (.addClause (.ofVars (by decide)) (by decide)) (by decide)
  have found : model? f [Lit.pos 4] = some m := by decide +kernel
  have least := (model?_is_least_model made (by decide)).2 m found
  exact ⟨made, found, least.2.2⟩

end Search

end MaxSat

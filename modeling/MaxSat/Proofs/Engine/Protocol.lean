import MaxSat.Engine.Solve
import MaxSat.Proofs.Engine.Relaxation

/-!
# The order of oracle calls

A log lists the calls of a run, the latest first. `Event.Follows` tells which
call can come after the calls before it, and `Ending.Closes` after which calls a
stage ends in which way. Neither assumes anything of the answers: both hold of
every run, for oracles that answer rightly and for any others. What a run does
with an answer is read off the next call.
-/

namespace MaxSat

namespace Event

def newVar? : Event → Option Nat
  | newVar v => some v
  | _ => none

def core? : Event → Option Core
  | hit c => some c
  | _ => none

def IsSolve : Event → Prop
  | solve _ _ => True
  | _ => False

/-- The calls of seeding. -/
def IsSetup : Event → Prop
  | reserve _ _ => True
  | add _ => True
  | _ => False

end Event

namespace Log

/-- The relaxation variables, in the order in which they were taken. -/
def vars (log : List Event) : List Nat := log.reverse.filterMap Event.newVar?

/-- The recorded cores, in order. -/
def cores (log : List Event) : List Core := log.reverse.filterMap Event.core?

/-- The literals to assume for the clauses outside of a set. -/
def assumptions (log : List Event) (set : List Nat) : List Lit :=
  ((vars log).filter fun v => !set.contains v).map Lit.pos

/-- The variable relaxes the soft clause: both come at the same place in their order. -/
def Relaxes (f : Formula) (log : List Event) (v : Nat) (s : SoftClause) : Prop :=
  ∃ i : Nat, (vars log)[i]? = some v ∧ f.soft[i]? = some s

@[simp] theorem vars_cons (e : Event) (log : List Event) :
    vars (e :: log) = vars log ++ e.newVar?.toList := by
  cases e <;> simp [vars, Event.newVar?]

@[simp] theorem cores_cons (e : Event) (log : List Event) :
    cores (e :: log) = cores log ++ e.core?.toList := by
  cases e <;> simp [cores, Event.core?]

theorem mem_cores {c : Core} {log : List Event} : c ∈ cores log ↔ .hit c ∈ log := by
  constructor
  · intro mem
    obtain ⟨e, he, found⟩ := List.mem_filterMap.mp mem
    cases e <;> simp [Event.core?] at found
    exact found ▸ List.mem_reverse.mp he
  · intro mem
    exact List.mem_filterMap.mpr ⟨.hit c, List.mem_reverse.mpr mem, rfl⟩

theorem cores_eq_nil {log : List Event} (none_ : ∀ c, .hit c ∉ log) : cores log = [] :=
  List.eq_nil_iff_forall_not_mem.mpr fun c mem => none_ c (mem_cores.mp mem)

/-- Later calls only add variables. -/
theorem vars_append (later log : List Event) : ∃ more, vars (later ++ log) = vars log ++ more :=
  ⟨vars later, by simp [vars]⟩

theorem vars_of_isSetup {log : List Event} (setup : ∀ e ∈ log, e.IsSetup) : vars log = [] := by
  refine List.filterMap_eq_nil_iff.mpr fun e mem => ?_
  have setup := setup e (List.mem_reverse.mp mem)
  cases e <;> trivial

theorem cores_append (later log : List Event) :
    cores (later ++ log) = cores log ++ cores later := by
  simp [cores]

theorem Relaxes.mono {f : Formula} {log : List Event} {v : Nat} {s : SoftClause}
    (relaxes : Relaxes f log v s) (later : List Event) : Relaxes f (later ++ log) v s := by
  obtain ⟨i, var, soft⟩ := relaxes
  obtain ⟨more, eq⟩ := vars_append later log
  refine ⟨i, ?_, soft⟩
  rw [eq, List.getElem?_append_left (List.getElem?_eq_some_iff.mp var).1]
  exact var

theorem Relaxes.mem_vars {f : Formula} {log : List Event} {v : Nat} {s : SoftClause}
    (relaxes : Relaxes f log v s) : v ∈ vars log := by
  obtain ⟨i, var, _⟩ := relaxes
  exact List.mem_of_getElem? var

theorem mem_assumptions {log : List Event} {set : List Nat} {l : Lit} :
    l ∈ assumptions log set ↔ ∃ v ∈ vars log, v ∉ set ∧ Lit.pos v = l := by
  simp only [assumptions, List.mem_map, List.mem_filter, Bool.not_eq_true', List.contains_eq_mem,
    decide_eq_false_iff_not, and_assoc]

end Log

/-- Nothing is left to be done for the latest call: it added a clause or recorded a core, or a
model was found. -/
def Log.Ready : List Event → Prop
  | .reserve _ _ :: _ | .add _ :: _ | .hit _ :: _ | .solve _ .sat :: .get _ _ :: _ => True
  | _ => False

/-- A call that assumes a part of a core and gets an answer. -/
def Event.Retries (core : List Lit) : Event → Prop
  | solve _ (.failed _) => False
  | solve part _ => part.Sublist core
  | _ => False

/-- A round has got a core of what it asked for, and goes on with calls that shrink it. -/
structure Log.Shrinking (minimize : Bool) (set : List Nat) (asked core : List Lit)
    (before log : List Event) : Prop where
  wanted : minimize = true
  long : 1 < core.length
  calls : ∃ calls n, (∀ e ∈ calls, e.Retries core) ∧
    log = calls ++ .solve asked (.unsat (some core)) :: .get set n :: before

/-- A round is left with a core of what it asked for: the one of the answer, or what shrinking
has made of it. -/
inductive Log.Blames (minimize : Bool) (set : List Nat) (asked core : List Lit)
    (before : List Event) : List Event → Prop
  | answer {n : Nat} (short : minimize = true → core.length ≤ 1) :
      Blames minimize set asked core before
        (.solve asked (.unsat (some core)) :: .get set n :: before)
  | shrunk {whole : List Lit} {reply : Reply} {log : List Event}
      (shrinking : Log.Shrinking minimize set asked whole before log)
      (last : (Event.solve core reply).Retries whole) :
      Blames minimize set asked core before (.solve core reply :: log)

/-- The calls before a call, as far as they decide on it. A core is recorded only if a round
is left with it and has assumed all of its variables. -/
def Event.Follows (f : Formula) (minimize : Bool) (before : List Event) : Event → Prop
  | reserve _ _ => False
  | newVar _ => Log.Ready before ∧ (Log.vars before).length < f.soft.length
  | add c => ∃ v log s, before = .newVar v :: log ∧ f.soft[(Log.vars log).length]? = some s ∧
      c = Relaxation.clause ⟨v, s⟩
  | get _ _ => Log.Ready before
  | solve ls _ =>
    (∃ set n log, before = .get set n :: log ∧ (∀ v ∈ set, v ∈ Log.vars log) ∧
      ls = Log.assumptions log set) ∨
    ∃ set asked core log, Log.Shrinking minimize set asked core log before ∧ ls.Sublist core
  | hit c => ∃ set core log, Log.Blames minimize set (Log.assumptions log set) core log before ∧
      (∀ l ∈ core, l ∈ Log.assumptions log set) ∧
      c.vars ≠ [] ∧ (∀ v, v ∈ c.vars ↔ Lit.pos v ∈ core) ∧
      ∀ m ∈ c.members, ∃ s, Log.Relaxes f log m.1 s ∧ m.2 = s.weight

/-- The log continues `start` by calls that follow one another. -/
inductive Lawful (f : Formula) (minimize : Bool) (start : List Event) : List Event → Prop
  | start : Lawful f minimize start start
  | call {e : Event} {log : List Event} (lawful : Lawful f minimize start log)
      (follows : e.Follows f minimize log) : Lawful f minimize start (e :: log)

/-- Every call of the log, unless it is one of the start, follows from those before it. -/
theorem Lawful.follows {f : Formula} {minimize : Bool} {start log : List Event}
    (lawful : Lawful f minimize start log) {later before : List Event} {e : Event}
    (eq : log = later ++ e :: before) :
    e.Follows f minimize before ∨ ∃ front, start = front ++ e :: before := by
  induction lawful generalizing later with
  | start => exact .inr ⟨later, eq⟩
  | call lawful follows ih =>
    cases later with
    | nil =>
      obtain ⟨rfl, rfl⟩ := List.cons.inj eq
      exact .inl follows
    | cons k later => exact ih (List.cons.inj eq).2

section Calls

variable {f : Formula} {minimize : Bool} {start log : List Event}
  (lawful : Lawful f minimize start log)
include lawful

theorem Lawful.follows_of_setup (setup : ∀ e ∈ start, e.IsSetup) {later before : List Event}
    {e : Event} (eq : log = later ++ e :: before) (other : ¬ e.IsSetup) :
    e.Follows f minimize before := by
  rcases lawful.follows eq with follows | ⟨front, eq⟩
  · exact follows
  · exact absurd (setup e (by simp [eq])) other

/-- Once a call is made that is none of seeding, each call follows from all before it. -/
theorem Lawful.next (setup : ∀ e ∈ start, e.IsSetup) {later before : List Event}
    (eq : log = later ++ before) (past : ∃ k ∈ before, ¬ k.IsSetup) :
    later = [] ∨ ∃ more e, later = more ++ [e] ∧ e.Follows f minimize before := by
  obtain ⟨k, mem, other⟩ := past
  rcases later.eq_nil_or_concat' with none_ | ⟨more, e, rfl⟩
  · exact .inl none_
  · rw [List.append_assoc] at eq
    rcases lawful.follows eq with follows | ⟨front, eq⟩
    · exact .inr ⟨more, e, rfl, follows⟩
    · exact absurd (setup k (by simp [eq, mem])) other

theorem Lawful.length_vars_le (setup : ∀ e ∈ start, e.IsSetup) :
    (Log.vars log).length ≤ f.soft.length := by
  induction lawful with
  | start =>
    rw [Log.vars_of_isSetup setup]
    exact Nat.zero_le _
  | @call e log lawful follows ih =>
    rw [Log.vars_cons]
    cases e with
    | newVar v =>
      have room := follows.2
      simp only [Event.newVar?, Option.toList_some, List.length_append, List.length_singleton]
      omega
    | _ => simpa [Event.newVar?] using ih

end Calls

/-- The calls after which a stage ends in the given way. -/
inductive Ending.Closes (minimize : Bool) : List Event → Ending → Prop
  | settled {asked : List Lit} {set : List Nat} {n : Nat} {before : List Event} :
      Closes minimize (.solve asked .sat :: .get set n :: before) .settled
  | infeasible {set : List Nat} {asked : List Lit} {before log : List Event}
      (blames : Log.Blames minimize set asked [] before log) : Closes minimize log .infeasible
  | unknown {set : List Nat} {n v : Nat} {before : List Event}
      (first : (set.find? fun v => !(Log.vars before).contains v) = some v) :
      Closes minimize (.get set n :: before) (.failed (.unknownVariable v))
  | failing {ls : List Lit} {reason : String} {before : List Event} :
      Closes minimize (.solve ls (.failed reason) :: before) (.failed (.oracle reason))
  | missing {asked : List Lit} {set : List Nat} {n : Nat} {before : List Event} :
      Closes minimize (.solve asked (.unsat none) :: .get set n :: before) (.failed .missingCore)
  | foreign {set : List Nat} {asked core : List Lit} {before log : List Event} {l : Lit}
      (blames : Log.Blames minimize set asked core before log)
      (first : (core.find? fun l => !asked.contains l) = some l) :
      Closes minimize log (.failed (.notAssumed l))
  /-- There is no round left for another core. -/
  | rounds {log : List Event} (ready : Log.Ready log) : Closes minimize log (.failed .outOfRounds)
  /-- There is no call left to shrink a core. -/
  | calls {set : List Nat} {asked core : List Lit} {before log : List Event}
      (shrinking : Log.Shrinking minimize set asked core before log) :
      Closes minimize log (.failed .outOfRounds)

theorem Ending.ready_of_settled {minimize : Bool} {log : List Event}
    (closes : Ending.settled.Closes minimize log) : Log.Ready log := by
  cases closes
  trivial

/-- How the last stage of a run with the given result ended. -/
def Ending.ofResult : Except SolveError Outcome → Ending
  | .error e => .failed e
  | .ok .infeasible => .infeasible
  | .ok (.optimum _) => .settled

namespace Log

variable {minimize : Bool} {set : List Nat} {asked core : List Lit} {before log : List Event}

theorem Shrinking.retry (shrinking : Shrinking minimize set asked core before log) {e : Event}
    (retries : e.Retries core) : Shrinking minimize set asked core before (e :: log) := by
  obtain ⟨wanted, long, calls, n, all, eq⟩ := shrinking
  refine ⟨wanted, long, e :: calls, n, ?_, by rw [eq, List.cons_append]⟩
  intro k mem
  rcases List.mem_cons.mp mem with same | mem
  · exact same ▸ retries
  · exact all k mem

theorem isSolve_of_retries {e : Event} (retries : e.Retries core) : e.IsSolve := by
  cases e <;> trivial

/-- Between the hitting set and the core there are only calls to the SAT oracle. -/
theorem Shrinking.split (shrinking : Shrinking minimize set asked core before log) :
    ∃ calls n, (∀ e ∈ calls, e.IsSolve) ∧ log = calls ++ .get set n :: before := by
  obtain ⟨_, _, calls, n, all, eq⟩ := shrinking
  refine ⟨calls ++ [.solve asked (.unsat (some core))], n, ?_, by simp [eq]⟩
  intro e mem
  rcases List.mem_append.mp mem with mem | mem
  · exact isSolve_of_retries (all e mem)
  · rw [List.mem_singleton.mp mem]
    trivial

theorem Blames.split (blames : Blames minimize set asked core before log) :
    ∃ calls n, (∀ e ∈ calls, e.IsSolve) ∧ log = calls ++ .get set n :: before := by
  cases blames with
  | @answer n _ =>
    refine ⟨[.solve asked (.unsat (some core))], n, ?_, rfl⟩
    intro e mem
    rw [List.mem_singleton.mp mem]
    trivial
  | @shrunk whole reply log shrinking last =>
    obtain ⟨calls, n, all, eq⟩ := shrinking.split
    refine ⟨.solve core reply :: calls, n, ?_, by rw [eq, List.cons_append]⟩
    intro e mem
    rcases List.mem_cons.mp mem with same | mem
    · rw [same]
      trivial
    · exact all e mem

/-- No core was recorded since the hitting set was asked for. -/
theorem Blames.cores_eq (blames : Blames minimize set asked core before log) :
    cores log = cores before := by
  obtain ⟨calls, n, all, rfl⟩ := blames.split
  rw [cores_append, cores_eq_nil fun c => all (.hit c), cores_cons]
  simp [Event.core?]

end Log

section Cores

variable {f : Formula} {minimize : Bool} {start log : List Event}
  (lawful : Lawful f minimize start log) (setup : ∀ e ∈ start, e.IsSetup)
include lawful setup

theorem Lawful.cores_nonempty : ∀ c ∈ Log.cores log, c.vars ≠ [] := by
  intro c mem
  obtain ⟨later, before, eq⟩ := List.append_of_mem (Log.mem_cores.mp mem)
  obtain ⟨_, _, _, _, _, nonempty, _⟩ := lawful.follows_of_setup setup eq id
  exact nonempty

/-- A core names variables of relaxed clauses, under the weights of the clauses. -/
theorem Lawful.cores_members : ∀ c ∈ Log.cores log, ∀ m ∈ c.members,
    ∃ s, Log.Relaxes f log m.1 s ∧ m.2 = s.weight := by
  intro c mem m hm
  obtain ⟨later, before, rfl⟩ := List.append_of_mem (Log.mem_cores.mp mem)
  obtain ⟨set, core, earlier, blames, _, _, _, members⟩ := lawful.follows_of_setup setup rfl id
  obtain ⟨calls, n, _, rfl⟩ := blames.split
  obtain ⟨s, relaxes, weight⟩ := members m hm
  have mono := relaxes.mono (later ++ .hit c :: (calls ++ [.get set n]))
  exact ⟨s, by simpa using mono, weight⟩

theorem Lawful.cores_inside : ∀ c ∈ Log.cores log, ∀ v ∈ c.vars, v ∈ Log.vars log := by
  intro c mem v named
  obtain ⟨m, hm, rfl⟩ := List.mem_map.mp named
  obtain ⟨s, relaxes, _⟩ := lawful.cores_members setup c mem m hm
  exact relaxes.mem_vars

end Cores

end MaxSat

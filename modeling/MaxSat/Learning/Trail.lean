import MaxSat.Cnf

/-!
# Trails

A partial assignment that remembers how it came about. A variable is bound by a
choice or by a clause whose other literals are all false; the bindings of one
choice and its consequences form a level. Level 0 has what holds before any
choice.
-/

namespace MaxSat.Learning

structure Binding where
  positive : Bool
  /-- The number of choices made up to then. -/
  level : Nat
  /-- The clause that left no other value; none if the value was chosen or assumed. -/
  reason : Option Clause
  deriving DecidableEq, Repr

structure Trail where
  /-- Indexed by variable. -/
  bindings : Array (Option Binding)
  /-- The literals made true, the latest first. -/
  steps : List Lit := []
  level : Nat := 0

namespace Trail

/-- Nothing is bound; variables from the width on never will be. -/
def ofWidth (n : Nat) : Trail := { bindings := Array.replicate n none }

def binding? (t : Trail) (v : Nat) : Option Binding := t.bindings.getD v none

def isBound (t : Trail) (v : Nat) : Bool := (t.binding? v).isSome

def isTrue (t : Trail) (l : Lit) : Bool :=
  match t.binding? l.var with
  | none => false
  | some b => b.positive == l.positive

def isFalse (t : Trail) (l : Lit) : Bool :=
  match t.binding? l.var with
  | none => false
  | some b => b.positive != l.positive

/-- The level on which the literal's variable was bound. -/
def levelOf (t : Trail) (l : Lit) : Nat :=
  match t.binding? l.var with
  | none => 0
  | some b => b.level

def reason? (t : Trail) (v : Nat) : Option Clause := (t.binding? v).bind Binding.reason

/-- Makes a literal true on the present level. -/
def push (t : Trail) (l : Lit) (reason : Option Clause) : Trail :=
  { t with
    bindings := t.bindings.setIfInBounds l.var (some ⟨l.positive, t.level, reason⟩)
    steps := l :: t.steps }

/-- Makes a literal true on a level of its own. -/
def choose (t : Trail) (l : Lit) : Trail := { t with level := t.level + 1 }.push l none

/-- Takes back the given steps as long as they are above a level. -/
def undo (level : Nat) : List Lit → Array (Option Binding) → Trail
  | [], bindings => { bindings, steps := [], level }
  | l :: steps, bindings =>
    match bindings.getD l.var none with
    | none => undo level steps bindings
    | some b =>
      if level < b.level then undo level steps (bindings.setIfInBounds l.var none)
      else { bindings, steps := l :: steps, level }

/-- Takes back all levels above the given one. -/
def backTo (t : Trail) (level : Nat) : Trail := undo level t.steps t.bindings

/-- The values by variable, with unbound variables false. -/
def model (t : Trail) : Array Bool :=
  t.bindings.map fun b => (b.map Binding.positive).getD false

end Trail

end MaxSat.Learning

import MaxSat.Text

/-!
# Literals and clauses

A literal is a variable with a sign. Variables are numbered from 1 in files;
the type also admits variable 0 and numbers beyond `maxVar`, which only
`Lit.ofInt?` refuses. Truth is taken under a valuation of all variables;
`valuation` reads one off a model stored by index.
-/

namespace MaxSat

/-- The largest variable id a formula may use. -/
def maxVar : Nat := 2147483647

/-- The largest variable id a solver can hand out. -/
def lastId : Nat := 4294967295

structure Lit where
  var : Nat
  positive : Bool
  deriving DecidableEq, Repr

abbrev Clause := List Lit

/-- A truth value for every variable. -/
abbrev Valuation := Nat → Bool

/-- Variables past the end of a stored model are false. -/
def valuation (model : Array Bool) : Valuation := fun v => model.getD v false

namespace Lit

def pos (v : Nat) : Lit := ⟨v, true⟩

def neg (v : Nat) : Lit := ⟨v, false⟩

def negate (l : Lit) : Lit := { l with positive := !l.positive }

/-- The signed number of a literal; zero and numbers beyond `maxVar` name none. -/
def ofInt? (n : Int) : Option Lit :=
  if n = 0 || n.natAbs > maxVar then none else some ⟨n.natAbs, 0 < n⟩

/-- The number a file writes for the literal. -/
def toInt (l : Lit) : Int := if l.positive then l.var else -(l.var : Int)

/-- The decimal text of that number. -/
def render (l : Lit) : List Char := Text.ofInteger l.toInt

def text (l : Lit) : String := String.ofList l.render

/-- A literal is true when its variable has its sign. -/
def holds (ν : Valuation) (l : Lit) : Bool := ν l.var == l.positive

/-- By variable, the negative literal first. -/
def le (a b : Lit) : Bool :=
  a.var < b.var || (a.var == b.var && (!a.positive || b.positive))

end Lit

namespace Clause

def holds (ν : Valuation) (c : Clause) : Bool := c.any (Lit.holds ν)

/-- The largest variable of the clause, 0 if it has none. -/
def maxVar : Clause → Nat
  | [] => 0
  | l :: c => max l.var (maxVar c)

end Clause

end MaxSat

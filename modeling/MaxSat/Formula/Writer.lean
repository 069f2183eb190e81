import MaxSat.Formula.Basic

/-!
# Writing instance files

A written file has the comments, a preamble and one line per clause, hard
clauses first. Words are separated by one space. Hard clauses carry the top
weight, so a reader finds them hard again if that weight is positive.
-/

namespace MaxSat.Formula

open Text

/-- The words of a line with single spaces between them. -/
def joinWords (ws : List (List Char)) : List Char := List.intercalate [' '] ws

/-- The words of a clause line, from `lead` up to the terminator. -/
def clauseWords (lead : List (List Char)) (c : Clause) : List (List Char) :=
  lead ++ c.map Lit.render ++ [['0']]

def numClauses (f : Formula) : Nat := f.hard.length + f.soft.length

def pwcnfPreamble (f : Formula) : List (List Char) :=
  ["p".toList, "pwcnf".toList, ofNatural f.numVars, ofNatural f.numClauses,
    f.topWeight.render, ofNatural (f.numPartitions - 1)]

def wcnfPreamble (f : Formula) : List (List Char) :=
  ["p".toList, "wcnf".toList, ofNatural f.numVars, ofNatural f.numClauses, f.topWeight.render]

/-- The lines of a file that keeps partitions. -/
def pwcnfLines (f : Formula) : List (List Char) :=
  f.comments.map String.toList ++ [joinWords f.pwcnfPreamble] ++
    f.hard.map (fun h =>
      joinWords (clauseWords [ofNatural h.partition, f.topWeight.render] h.clause)) ++
    f.soft.map fun s =>
      joinWords (clauseWords [ofNatural s.partition, s.weight.render] s.clause)

/-- The lines of a file without partitions. -/
def wcnfLines (f : Formula) : List (List Char) :=
  f.comments.map String.toList ++ [joinWords f.wcnfPreamble] ++
    f.hard.map (fun h => joinWords (clauseWords [f.topWeight.render] h.clause)) ++
    f.soft.map fun s => joinWords (clauseWords [s.weight.render] s.clause)

/-- Every line ends in a line feed. -/
def unlines (ls : List (List Char)) : String := String.ofList (ls.flatMap (· ++ ['\n']))

def toPwcnf (f : Formula) : String := unlines f.pwcnfLines

def toWcnf (f : Formula) : String := unlines f.wcnfLines

end MaxSat.Formula

import MaxSat.Literal

/-!
# What can be wrong with an instance

Each fault is a cause; its wording is `Fault.message`. A fault found while
reading a file carries the number of its line, counted from 1.
-/

namespace MaxSat

/-- The tokens of a file that have a format of their own. -/
inductive TokenKind where
  | variableCount
  | clauseCount
  | topWeight
  | partitionCount
  | partition
  | weight
  | literal
  deriving DecidableEq, Repr

def TokenKind.name : TokenKind → String
  | variableCount => "variable count"
  | clauseCount => "clause count"
  | topWeight => "top weight"
  | partitionCount => "partition count"
  | partition => "partition"
  | weight => "weight"
  | literal => "literal"

inductive Fault where
  | badPreamble (line : String)
  | duplicatePreamble
  | missingPreamble
  | truncatedClause
  | missingTerminator
  | interiorZero
  | badToken (kind : TokenKind) (token : String)
  | unreadable (reason : String)
  | tooManyVariables
  deriving DecidableEq, Repr

def Fault.message : Fault → String
  | badPreamble line => "malformed preamble '" ++ line ++ "'"
  | duplicatePreamble => "second preamble line"
  | missingPreamble => "clause line before the preamble"
  | truncatedClause => "clause line is missing its partition or weight"
  | missingTerminator => "clause is not terminated by 0"
  | interiorZero => "literal 0 inside a clause"
  | badToken kind token => "invalid " ++ kind.name ++ " token '" ++ token ++ "'"
  | unreadable reason => "failed to read input: " ++ reason
  | tooManyVariables =>
    "formula needs more than " ++ String.ofList (Text.ofNatural maxVar) ++ " variables"

/-- A fault with the line that shows it. -/
structure ReadError where
  line : Nat
  fault : Fault
  deriving DecidableEq, Repr

def ReadError.message (e : ReadError) : String :=
  "line " ++ String.ofList (Text.ofNatural e.line) ++ ": " ++ e.fault.message

end MaxSat

import MaxSat.Formula.Problem
import MaxSat.Text

/-!
# Reading instance files

A file has one preamble line, whose first word is `p`, comment lines, which
start with one of the comment leads, and clause lines after the preamble. In
the `pwcnf` dialect a clause line is a partition, a weight, literals and `0`;
in the `wcnf` dialect the partition is missing and everything is in bucket 0.
The variable and clause counts of the preamble are read but bind nothing.

Reading stops at the first fault, taken in the order of lines and inside a line
in the order of its tokens, except that a clause's missing `0` is found first.
-/

namespace MaxSat

inductive Dialect where
  | pwcnf
  | wcnf
  deriving DecidableEq, Repr

def Dialect.keyword : Dialect → String
  | pwcnf => "pwcnf"
  | wcnf => "wcnf"

structure ReadOptions where
  dialect : Dialect := .pwcnf
  commentLeads : List String := ["c"]
  deriving DecidableEq, Repr

/-- What a preamble binds. -/
structure Preamble where
  top : TopWeight
  partitions : Nat
  deriving DecidableEq, Repr

/-- What has been read so far; clauses and comments are newest first. -/
structure Reader where
  preamble : Option Preamble := none
  entries : List Entry := []
  comments : List String := []
  deriving DecidableEq, Repr

namespace Reader

open Text

def badToken (kind : TokenKind) (token : List Char) : Fault :=
  .badToken kind (String.ofList token)

/-- A count or index up to `bound`. -/
def readCount (kind : TokenKind) (bound : Nat) (token : List Char) : Except Fault Nat :=
  match count? bound token with
  | some n => .ok n
  | none => .error (badToken kind token)

def readWeight (kind : TokenKind) (token : List Char) : Except Fault Weight :=
  match Weight.parse? token with
  | some w => .ok w
  | none => .error (badToken kind token)

/-- The words of a preamble that follow its two counts: the top weight and the number of
partitions, where the dialect has them. -/
def preambleTail (d : Dialect) (rest : List (List Char)) :
    Option (Option (List Char) × Option (List Char)) :=
  match d, rest with
  | .pwcnf, [p] => some (none, some p)
  | .pwcnf, [t, p] => some (some t, some p)
  | .wcnf, [] => some (none, none)
  | .wcnf, [t] => some (some t, none)
  | _, _ => none

def readTop : Option (List Char) → Except Fault TopWeight
  | none => .ok .infinite
  | some t => (readWeight .topWeight t).map .finite

/-- Partitions are counted from 0 up to the declared number. -/
def readPartitions : Option (List Char) → Except Fault Nat
  | none => .ok 1
  | some t => (readCount .partitionCount (lastPartition - 1) t).map (· + 1)

/-- The words after `p`; `line` is quoted if they have the wrong shape. -/
def readPreamble (d : Dialect) (line : List Char) (ws : List (List Char)) :
    Except Fault Preamble :=
  match ws with
  | key :: vars :: clauses :: rest =>
    match preambleTail d rest with
    | none => .error (.badPreamble (String.ofList line))
    | some (top, partitions) =>
      if key ≠ d.keyword.toList then .error (.badPreamble (String.ofList line))
      else do
        let _ ← readCount .variableCount lastPartition vars
        let _ ← readCount .clauseCount lastPartition clauses
        let top ← readTop top
        let partitions ← readPartitions partitions
        return ⟨top, partitions⟩
  | _ => .error (.badPreamble (String.ofList line))

def readLit (token : List Char) : Except Fault Lit :=
  match integer? token with
  | none => .error (badToken .literal token)
  | some n =>
    if n = 0 then .error .interiorZero
    else match Lit.ofInt? n with
      | some l => .ok l
      | none => .error (badToken .literal token)

def readLits : List (List Char) → Except Fault Clause
  | [] => .ok []
  | t :: ts => do
    let l ← readLit t
    let ls ← readLits ts
    return l :: ls

/-- A weight and literals. -/
def readWeighted (partition : Nat) : List (List Char) → Except Fault Entry
  | [] => .error .truncatedClause
  | w :: lits => do
    let weight ← readWeight .weight w
    let clause ← readLits lits
    return .weighted clause weight partition

/-- The words of a clause line without its terminator. -/
def readBody (d : Dialect) (ws : List (List Char)) : Except Fault Entry :=
  match d, ws with
  | .wcnf, ws => readWeighted 0 ws
  | .pwcnf, [] => .error .truncatedClause
  | .pwcnf, p :: ws => do
    let partition ← readCount .partition (lastPartition - 1) p
    readWeighted partition ws

/-- A clause line; its last word is `0`. -/
def readClause (d : Dialect) (ws : List (List Char)) : Except Fault Entry :=
  if ws.getLast? = some ['0'] then readBody d ws.dropLast else .error .missingTerminator

/-- An empty lead starts nothing. -/
def isComment (leads : List String) (line : List Char) : Bool :=
  leads.any fun lead => !lead.toList.isEmpty && lead.toList.isPrefixOf line

/-- One line of the file. -/
def line (o : ReadOptions) (r : Reader) (text : List Char) : Except Fault Reader :=
  let clean := trim text
  match words clean with
  | [] => .ok r
  | first :: rest =>
    if first = ['p'] then
      if r.preamble.isSome then .error .duplicatePreamble
      else (readPreamble o.dialect clean rest).map fun p => { r with preamble := some p }
    else if isComment o.commentLeads clean then
      .ok { r with comments := String.ofList clean :: r.comments }
    else if r.preamble.isNone then .error .missingPreamble
    else (readClause o.dialect (first :: rest)).map fun e => { r with entries := e :: r.entries }

/-- The lines after the first `n`; the result has the number of lines read. -/
def lines (o : ReadOptions) : Nat → Reader → List Line → Except ReadError (Nat × Reader)
  | n, r, [] => .ok (n, r)
  | n, _, .error reason :: _ => .error ⟨n + 1, .unreadable reason⟩
  | n, r, .ok text :: rest =>
    match r.line o text with
    | .error fault => .error ⟨n + 1, fault⟩
    | .ok r => lines o (n + 1) r rest

end Reader

namespace Formula

/-- Reads and normalizes an instance. Faults of the whole file, a missing preamble or too
many variables, are reported at its last line. -/
def ofLines (o : ReadOptions) (ls : List Text.Line) : Except ReadError Formula := do
  let (n, r) ← Reader.lines o 0 {} ls
  match r.preamble with
  | none => .error ⟨n, .missingPreamble⟩
  | some p =>
    let problem : Problem := {
      top := p.top
      partitions := p.partitions
      entries := r.entries.reverse
      comments := r.comments.reverse }
    match problem.build with
    | .ok f => .ok f
    | .error fault => .error ⟨n, fault⟩

def ofString (o : ReadOptions) (s : String) : Except ReadError Formula :=
  ofLines o (Text.linesOfString s)

def ofBytes (o : ReadOptions) (bytes : List UInt8) : Except ReadError Formula :=
  ofLines o (Text.linesOfBytes bytes)

end Formula

end MaxSat

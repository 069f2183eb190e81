import Mathlib.Data.List.Forall2
import MaxSat.Formula.Reader
import MaxSat.Proofs.Text.Numeral

/-!
# The grammar of instance files

What a file may hold, said without a reader. A line is blank, a preamble, a
comment or a clause by its first word and its start. A preamble and a clause line
are words in a fixed layout, each of a kind of its own; a line is refused for the
first word that is not of its kind, unless its layout is wrong.

A file declares a problem if it has one preamble, no clause line stands before it,
and all its lines are well formed. Counts of variables and clauses only have to
be numerals.
-/

namespace MaxSat

namespace Grammar

open Text

/-- The signed number of a variable. -/
def IsLiteral (t : List Char) (l : Lit) : Prop :=
  ∃ n : Int, IsInteger t n ∧ n ≠ 0 ∧ n.natAbs ≤ maxVar ∧ l = ⟨n.natAbs, 0 < n⟩

/-- The words that are tokens of a kind. -/
def Fits : TokenKind → List Char → Prop
  | .variableCount, t | .clauseCount, t => ∃ n, IsCount lastPartition t n
  | .partitionCount, t | .partition, t => ∃ n, IsCount (lastPartition - 1) t n
  | .topWeight, t | .weight, t => ∃ w, Weight.parse? t = some w
  | .literal, t => ∃ l, IsLiteral t l

/-- Why a word is refused: a zero among the literals is told apart, any other word is named. -/
inductive Refused : TokenKind → List Char → Fault → Prop
  | zero {t : List Char} (zero : IsInteger t 0) : Refused .literal t .interiorZero
  | unfit {kind : TokenKind} {t : List Char} (unfit : ¬ Fits kind t)
      (other : kind = .literal → ¬ IsInteger t 0) :
      Refused kind t (.badToken kind (String.ofList t))

/-- The first word that is refused, after words that fit. -/
def FirstRefused (tokens : List (TokenKind × List Char)) (fault : Fault) : Prop :=
  ∃ before kind t after, tokens = before ++ (kind, t) :: after ∧
    (∀ u ∈ before, Fits u.1 u.2) ∧ Refused kind t fault

/-- What stands in front of the literals. -/
def lead : Dialect → List TokenKind
  | .pwcnf => [.partition, .weight]
  | .wcnf => [.weight]

/-- The words in front of the terminator with the kinds that are expected of them. -/
def clauseTokens (d : Dialect) (body : List (List Char)) : List (TokenKind × List Char) :=
  (lead d ++ List.replicate body.length TokenKind.literal).zip body

/-- The words of a clause line and the clause that it declares. -/
inductive ClauseLine : Dialect → List (List Char) → Entry → Prop
  | pwcnf {p w : List Char} {ts : List (List Char)} {partition : Nat} {weight : Weight} {c : Clause}
      (index : IsCount (lastPartition - 1) p partition) (value : Weight.parse? w = some weight)
      (lits : List.Forall₂ IsLiteral ts c) :
      ClauseLine .pwcnf (p :: w :: ts ++ [['0']]) (.weighted c weight partition)
  | wcnf {w : List Char} {ts : List (List Char)} {weight : Weight} {c : Clause}
      (value : Weight.parse? w = some weight) (lits : List.Forall₂ IsLiteral ts c) :
      ClauseLine .wcnf (w :: ts ++ [['0']]) (.weighted c weight 0)

/-- What is wrong with the words of a clause line. A missing terminator is found first. -/
inductive ClauseFault (d : Dialect) : List (List Char) → Fault → Prop
  | unterminated {ws : List (List Char)} (last : ws.getLast? ≠ some ['0']) :
      ClauseFault d ws .missingTerminator
  | token {body : List (List Char)} {fault : Fault}
      (refused : FirstRefused (clauseTokens d body) fault) : ClauseFault d (body ++ [['0']]) fault
  | truncated {body : List (List Char)} (fit : ∀ u ∈ clauseTokens d body, Fits u.1 u.2)
      (short : body.length < (lead d).length) : ClauseFault d (body ++ [['0']]) .truncatedClause

/-- The words of a preamble after its keyword. -/
structure Header where
  vars : List Char
  clauses : List Char
  top : Option (List Char)
  partitions : Option (List Char)

namespace Header

/-- The layout of a preamble: the top weight may be missing, and the number of partitions is
there exactly if the dialect has partitions. -/
structure LaidOut (d : Dialect) (ws : List (List Char)) (h : Header) : Prop where
  words : ws = ['p'] :: d.keyword.toList :: h.vars :: h.clauses ::
    (h.top.toList ++ h.partitions.toList)
  partitions : h.partitions.isSome = true ↔ d = .pwcnf

def tokens (h : Header) : List (TokenKind × List Char) :=
  (.variableCount, h.vars) :: (.clauseCount, h.clauses) ::
    (h.top.toList.map (.topWeight, ·) ++ h.partitions.toList.map (.partitionCount, ·))

/-- What a preamble binds. Partitions are counted from 0 up to the declared number. -/
structure Declares (h : Header) (p : Preamble) : Prop where
  vars : Fits .variableCount h.vars
  clauses : Fits .clauseCount h.clauses
  top : match h.top with
    | none => p.top = .infinite
    | some t => ∃ w, Weight.parse? t = some w ∧ p.top = .finite w
  partitions : match h.partitions with
    | none => p.partitions = 1
    | some t => ∃ n, IsCount (lastPartition - 1) t n ∧ p.partitions = n + 1

end Header

/-- The words of a preamble and what it binds. -/
def PreambleLine (d : Dialect) (ws : List (List Char)) (p : Preamble) : Prop :=
  ∃ h : Header, h.LaidOut d ws ∧ h.Declares p

/-- What is wrong with the words of a preamble, which stand in `line`. -/
inductive PreambleFault (d : Dialect) (line : List Char) (ws : List (List Char)) : Fault → Prop
  | layout (none : ∀ h : Header, ¬ h.LaidOut d ws) :
      PreambleFault d line ws (.badPreamble (String.ofList line))
  | token {h : Header} {fault : Fault} (laidOut : h.LaidOut d ws)
      (refused : FirstRefused h.tokens fault) : PreambleFault d line ws fault

inductive LineKind where
  | blank
  | preamble
  | comment
  | clause
  deriving DecidableEq, Repr

/-- The first word `p` makes a preamble, also where it starts a comment. -/
def lineKind (o : ReadOptions) (line : List Char) : LineKind :=
  if trim line = [] then .blank
  else if (words (trim line)).head? = some ['p'] then .preamble
  else if ∃ lead ∈ o.commentLeads, lead ≠ "" ∧ lead.toList <+: trim line then .comment
  else .clause

def HasPreamble (o : ReadOptions) (ls : List (List Char)) : Prop :=
  ∃ l ∈ ls, lineKind o l = .preamble

/-- What is wrong with a line that follows the lines `before`. -/
inductive Offends (o : ReadOptions) (before : List (List Char)) : List Char → Fault → Prop
  | second {line : List Char} (kind : lineKind o line = .preamble)
      (seen : HasPreamble o before) : Offends o before line .duplicatePreamble
  | preamble {line : List Char} {fault : Fault} (kind : lineKind o line = .preamble)
      (first : ¬ HasPreamble o before)
      (faulty : PreambleFault o.dialect (trim line) (words (trim line)) fault) :
      Offends o before line fault
  | early {line : List Char} (kind : lineKind o line = .clause) (first : ¬ HasPreamble o before) :
      Offends o before line .missingPreamble
  | clause {line : List Char} {fault : Fault} (kind : lineKind o line = .clause)
      (seen : HasPreamble o before)
      (faulty : ClauseFault o.dialect (words (trim line)) fault) : Offends o before line fault

/-- No line offends, all read after the lines `before`. -/
def Orderly (o : ReadOptions) (before ls : List (List Char)) : Prop :=
  ∀ front line rest, ls = front ++ line :: rest → ∀ fault, ¬ Offends o (before ++ front) line fault

/-- The only preamble, which stands after blank lines and comments. -/
def Opens (o : ReadOptions) (ls : List (List Char)) (p : Preamble) : Prop :=
  ∃ front line rest, ls = front ++ line :: rest ∧
    (∀ l ∈ front, lineKind o l = .blank ∨ lineKind o l = .comment) ∧
    lineKind o line = .preamble ∧ PreambleLine o.dialect (words (trim line)) p ∧
    ∀ l ∈ rest, lineKind o l ≠ .preamble

/-- The clauses of a file in order. -/
def Enumerates (o : ReadOptions) (ls : List (List Char)) (entries : List Entry) : Prop :=
  List.Forall₂ (fun l e => ClauseLine o.dialect (words (trim l)) e)
    (ls.filter (lineKind o · = .clause)) entries

/-- The comments of a file in order, without the blanks around them. -/
def commentsOf (o : ReadOptions) (ls : List (List Char)) : List String :=
  (ls.filter (lineKind o · = .comment)).map fun l => String.ofList (trim l)

/-- The lines of a file and the problem that they declare. -/
structure Declares (o : ReadOptions) (ls : List (List Char)) (p : Problem) : Prop where
  preamble : Opens o ls ⟨p.top, p.partitions⟩
  clauses : Enumerates o ls p.entries
  comments : p.comments = commentsOf o ls

end Grammar

end MaxSat

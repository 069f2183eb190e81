import MaxSat.Text

/-!
# Benchmark rows

A row of the benchmark table reports one run on one instance. In the table's
text a path or a cost that holds a comma, a quote or a line feed is quoted, with
inner quotes doubled; the other fields are written as they are. Fields without
a value are empty.
-/

namespace MaxSat

structure BenchRow where
  path : String
  status : String
  backend : String
  mode : String
  wallMs : Option Nat := none
  satCalls : Option Nat := none
  cores : Option Nat := none
  cost : Option String := none
  vars : Option Nat := none
  hard : Option Nat := none
  soft : Option Nat := none
  partitions : Option Nat := none
  deriving DecidableEq, Repr

namespace BenchRow

/-- Characters that a bare field must not hold. -/
def needsQuotes (cs : List Char) : Bool := cs.any fun c => c == ',' || c == '"' || c == '\n'

def doubleQuotes : List Char → List Char
  | [] => []
  | c :: cs => if c = '"' then '"' :: '"' :: doubleQuotes cs else c :: doubleQuotes cs

/-- The text of a field, quoted if it has to be. -/
def quoted (cs : List Char) : List Char :=
  if needsQuotes cs then '"' :: doubleQuotes cs ++ ['"'] else cs

def number : Option Nat → List Char
  | none => []
  | some n => Text.ofNatural n

def columns : List String :=
  ["path", "status", "backend", "mode", "wall_ms", "sat_calls", "cores", "cost", "vars",
    "hard", "soft", "partitions"]

/-- The written fields, in the order of the columns. -/
def fields (r : BenchRow) : List (List Char) :=
  [quoted r.path.toList, r.status.toList, r.backend.toList, r.mode.toList, number r.wallMs,
    number r.satCalls, number r.cores, quoted (r.cost.getD "").toList, number r.vars,
    number r.hard, number r.soft, number r.partitions]

def joinFields (fs : List (List Char)) : List Char := List.intercalate [','] fs

/-- The fields of every line of a table, the header's first. -/
def records (rows : List BenchRow) : List (List (List Char)) :=
  columns.map String.toList :: rows.map fields

def header : String := String.ofList (joinFields (columns.map String.toList))

/-- The row's line of the table, without its line feed. -/
def line (r : BenchRow) : String := String.ofList (joinFields r.fields)

/-- The whole table; every line ends in a line feed. -/
def table (rows : List BenchRow) : String :=
  String.ofList ((records rows).flatMap fun fs => joinFields fs ++ ['\n'])

end BenchRow

end MaxSat

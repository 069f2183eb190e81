import MaxSat.Formula.Reader

/-!
# Paths, and what the commands need of a system

A path is names separated by slashes. Empty names and single dots mean nothing,
so `a//b/.` names what `a/b` does. Paths are ordered name by name, which puts
`a/x` before `a-b`.

A host has files, directories, output and a clock. The commands are written over
any host, so they run on a real system and on a file tree in memory alike.
Failures are the system's texts, to be shown to the user.
-/

namespace MaxSat

namespace Path

/-- The names of a path, without the ones that mean nothing. -/
def names (p : String) : List (List Char) :=
  (p.toList.splitOn '/').filter fun n => !n.isEmpty && n != ['.']

/-- The last name, unless it is the parent directory. -/
def fileName? (p : String) : Option (List Char) :=
  ((names p).getLast?).filter fun n => n != ['.', '.']

/-- What follows the last dot of the file name, if that is not its first character. -/
def extension? (p : String) : Option String := do
  let name ← fileName? p
  match Text.cutAt (· == '.') name.reverse with
  | none => none
  | some (_, []) => none
  | some (ext, _) => some (String.ofList ext.reverse)

/-- A path below a directory. -/
def join (dir name : String) : String :=
  match dir.toList.getLast? with
  | none => name
  | some '/' => dir ++ name
  | some _ => dir ++ "/" ++ name

def le (a b : String) : Bool :=
  !(names b).lex (names a) fun m n => m.lex n fun c d => c < d

end Path

/-- Files named `*.wcnf` have no partitions. -/
def Dialect.ofPath (p : String) : Dialect :=
  if Path.extension? p = some "wcnf" then .wcnf else .pwcnf

/-- Failures that go by a text of their own. -/
inductive FileError where
  | notFound
  | notDirectory
  | isDirectory
  | nameTooLong
  | zeroCharacter
  deriving DecidableEq, Repr

def FileError.message : FileError → String
  | notFound => "No such file or directory (os error 2)"
  | notDirectory => "Not a directory (os error 20)"
  | isDirectory => "Is a directory (os error 21)"
  | nameTooLong => "File name too long (os error 36)"
  | zeroCharacter => "file name contained an unexpected NUL byte"

structure DirEntry where
  name : String
  isDir : Bool
  deriving DecidableEq, Repr

class Host (m : Type → Type) where
  print : String → m Unit
  /-- The lines of a file. A file that opens and cannot be read has one line, the failure. -/
  readLines : String → m (Except String (List Text.Line))
  /-- Creates a file or replaces its contents. -/
  writeFile : String → String → m (Except String Unit)
  listDir : String → m (Except String (List DirEntry))
  /-- The result of an action, unless it takes more than the given milliseconds, and the
  time taken. -/
  timed : {α : Type} → Nat → m α → m (Option α × Nat)

end MaxSat

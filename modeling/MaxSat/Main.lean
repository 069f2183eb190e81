import MaxSat.Command.Programs

/-!
# The executable

The commands on a real system. The program that is run goes by the name it is
called under: `bench` is the benchmark, any other name the solver.
-/

namespace MaxSat

/-- The system's text for a failure, with its number. -/
def systemText : IO.Error → String
  | .noFileOrDirectory _ _ _ => FileError.notFound.message
  | .inappropriateType _ 20 _ => FileError.notDirectory.message
  | .inappropriateType _ 21 _ => FileError.isDirectory.message
  | .invalidArgument _ 36 _ => FileError.nameTooLong.message
  | .permissionDenied _ code _ => "Permission denied (os error " ++ showNat code.toNat ++ ")"
  | e => toString e

/-- The result of an action, or the text of its failure. -/
def attemptIO {α : Type} (action : IO α) : IO (Except String α) :=
  try return .ok (← action) catch e => return .error (systemText e)

/-- Opens a file first, so that a failure to open and one to read are told apart. -/
def readLinesIO (path : String) : IO (Except String (List Text.Line)) := do
  match ← attemptIO (IO.FS.Handle.mk path .read) with
  | .error e => return .error e
  | .ok handle =>
    match ← attemptIO handle.readBinToEnd with
    | .error e => return .ok [.error e]
    | .ok bytes => return .ok (Text.linesOfBytes bytes.toList)

def listDirIO (path : String) : IO (List DirEntry) := do
  if path.isEmpty then throw (.noFileOrDirectory path 2 "")
  let entries ← ((← IO.currentDir) / path).readDir
  entries.toList.mapM fun e => return ⟨e.fileName, ← e.path.isDir⟩

instance : Host IO where
  print s := do
    let out ← IO.getStdout
    out.putStr s
    out.flush
  readLines := readLinesIO
  writeFile path text := attemptIO (IO.FS.writeFile path text)
  listDir path := attemptIO (listDirIO path)
  timed limit action := do
    let start ← IO.monoMsNow
    let result ← action
    let elapsed := (← IO.monoMsNow) - start
    return (if limit ≤ elapsed then none else some result, elapsed)

end MaxSat

def main (args : List String) : IO UInt32 := do
  let bench := (← IO.appPath).fileName == some "bench"
  let exit ← if bench then MaxSat.benchProgram args else MaxSat.solverProgram args
  IO.eprint exit.report
  return exit.status.toUInt32

import MaxSat.Files.Host

/-!
# A file tree in memory

Paths are resolved name by name: only a directory can be entered, `.` stays and
`..` leaves. Outside of the tree there are directories and the null device, and
nothing else that could be found; what is written there is lost. A slash at the
end asks for a directory. Names and paths have a largest length in bytes, and a
path that holds the character zero is no path at all.
-/

namespace MaxSat

/-- The most bytes that one name of a path may have. -/
def maxNameBytes : Nat := 255

/-- The most bytes that a path may have. -/
def maxPathBytes : Nat := 4095

inductive FileNode where
  | file (bytes : List UInt8)
  | dir
  deriving DecidableEq

/-- Where a path leads. -/
inductive Place where
  | inside (path : List String)
  /-- A directory above the tree. -/
  | above
  /-- Where absolute paths start. -/
  | root
  /-- The directory of devices below the root. -/
  | devices
  /-- A device that is always empty. -/
  | nullDevice
  deriving DecidableEq, Repr

/-- The directory that a directory is in. -/
def Place.parent : Place → Place
  | inside [] | above => above
  | inside path => inside path.dropLast
  | root | devices | nullDevice => root

/-- Files and directories by path from the top of the tree, which is always there. -/
structure FileTree where
  nodes : List (List String × FileNode) := []

namespace FileTree

def node? (t : FileTree) (path : List String) : Option FileNode :=
  if path.isEmpty then some .dir else t.nodes.lookup path

def isDir (t : FileTree) : Place → Bool
  | .inside path => t.node? path == some .dir
  | .above | .root | .devices => true
  | .nullDevice => false

/-- Puts a node at a path, in place of what was there. -/
def put (t : FileTree) (path : List String) (n : FileNode) : FileTree :=
  { nodes := (path, n) :: t.nodes.filter fun e => e.1 != path }

/-- What a directory has under a name. -/
def child? (t : FileTree) (name : String) : Place → Option Place
  | .inside path =>
    if (t.node? (path ++ [name])).isSome then some (.inside (path ++ [name])) else none
  | .root => if name = "dev" then some .devices else none
  | .devices => if name = "null" then some .nullDevice else none
  | .above | .nullDevice => none

/-- Enters one name of a path. -/
def enter (t : FileTree) (place : Place) (name : String) : Except FileError Place :=
  if !t.isDir place then .error .notDirectory
  else if name = "" || name = "." then .ok place
  else if name = ".." then .ok place.parent
  else if maxNameBytes < name.utf8ByteSize then .error .nameTooLong
  else match t.child? name place with
    | some next => .ok next
    | none => .error .notFound

def walk (t : FileTree) : Place → List String → Except FileError Place
  | place, [] => .ok place
  | place, name :: rest =>
    match t.enter place name with
    | .error e => .error e
    | .ok place => walk t place rest

/-- Where a path starts, and its names. -/
def split (path : String) : Place × List String :=
  match (path.toList.splitOn '/').map String.ofList with
  | "" :: rest@(_ :: _) => (.root, rest)
  | names => (.inside [], names)

/-- What keeps a path from being looked up at all. -/
def refusal? (path : String) : Option FileError :=
  if path.toList.contains (Char.ofNat 0) then some .zeroCharacter
  else if path.isEmpty then some .notFound
  else if maxPathBytes < path.utf8ByteSize then some .nameTooLong
  else none

def resolve (t : FileTree) (path : String) : Except FileError Place :=
  match refusal? path with
  | some e => .error e
  | none =>
    let (start, names) := split path
    t.walk start names

/-- The contents at a place, unless it is a directory. -/
def contents? (t : FileTree) : Place → Option (List UInt8)
  | .inside path =>
    match t.node? path with
    | some (.file bytes) => some bytes
    | _ => none
  | .above | .root | .devices => none
  | .nullDevice => some []

/-- A directory opens like a file and fails when it is read. -/
def readLines (t : FileTree) (path : String) : Except FileError (List Text.Line) := do
  match t.contents? (← t.resolve path) with
  | some bytes => return Text.linesOfBytes bytes
  | none => return [.error FileError.isDirectory.message]

/-- The bytes of a file, if the path leads to one. -/
def bytes? (t : FileTree) (path : String) : Option (List UInt8) :=
  match t.resolve path with
  | .ok place => t.contents? place
  | .error _ => none

/-- Only the last name may be new, and it must not be a directory's. -/
def writeFile (t : FileTree) (path : String) (bytes : List UInt8) :
    Except FileError FileTree := do
  match refusal? path with
  | some e => .error e
  | none =>
    let (start, names) := split path
    let trimmed := (names.reverse.dropWhile fun n => n = "").reverse
    match trimmed.getLast? with
    | none => .error .isDirectory
    | some name =>
      let parent ← t.walk start trimmed.dropLast
      if !t.isDir parent then .error .notDirectory
      else if name = "." || name = ".." || trimmed.length < names.length then
        .error .isDirectory
      else if maxNameBytes < name.utf8ByteSize then .error .nameTooLong
      else if (t.child? name parent).any t.isDir then .error .isDirectory
      else match parent with
        | .inside p => return t.put (p ++ [name]) (.file bytes)
        | _ => return t

/-- The entries of a directory; those outside of the tree are not looked at. -/
def listDir (t : FileTree) (path : String) : Except FileError (List DirEntry) := do
  let place ← t.resolve path
  if !t.isDir place then .error .notDirectory
  else match place with
    | .inside p => return t.nodes.filterMap fun (q, n) =>
        match q.getLast? with
        | some name => if q.dropLast = p then some ⟨name, n == .dir⟩ else none
        | none => none
    | _ => return []

/-- Makes the directories along the given names, from `above` on, and says where they end. -/
def makeDirs (t : FileTree) (above : List String) : List String → List String × FileTree
  | [] => (above, t)
  | name :: rest =>
    if name = "" || name = "." then makeDirs t above rest
    else if name = ".." then makeDirs t above.dropLast rest
    else
      let path := above ++ [name]
      makeDirs (if (t.node? path).isSome then t else t.put path .dir) path rest

/-- Adds a file with the directories it is in; a name that ends in a slash is a directory. -/
def add (t : FileTree) (name : String) (bytes : List UInt8) : FileTree :=
  let names := (name.toList.splitOn '/').map String.ofList
  let (dir, t) := t.makeDirs [] names.dropLast
  match names.getLast? with
  | none | some "" => t
  | some last => t.put (dir ++ [last]) (.file bytes)

end FileTree

/-- A file tree with the text printed so far. -/
structure Workspace where
  tree : FileTree := {}
  output : String := ""

/-- A file tree in memory as a host. No time passes on it, so only an action that is given
no time at all fails to finish. -/
instance : Host (StateM Workspace) where
  print s := modify fun w => { w with output := w.output ++ s }
  readLines path := do return (← get).tree.readLines path |>.mapError FileError.message
  writeFile path text := do
    let w ← get
    match w.tree.writeFile path text.toUTF8.toList with
    | .error e => return .error e.message
    | .ok tree => set { w with tree }; return .ok ()
  listDir path := do return (← get).tree.listDir path |>.mapError FileError.message
  timed limit action := do
    if limit = 0 then return (none, 0)
    else return (some (← action), 0)

end MaxSat

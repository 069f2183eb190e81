/-!
# Command-line arguments

Long options take their value from the next argument or after `=`; short flags
may be put together behind one dash. An argument that starts with a dash, other
than a single dash, is never taken as a value. After `--` everything is
positional. An option may be given once, unless it collects a list. A line that
does not fit is refused as a whole.
-/

namespace MaxSat

/-- The options a command takes, by long name. -/
structure ArgumentSpec where
  flags : List String := []
  /-- Short names of flags. -/
  shorts : List (Char × String) := []
  /-- Options with one value. -/
  options : List String := []
  /-- Options that may be repeated. -/
  lists : List String := []

structure Arguments where
  flags : List String := []
  /-- Options with their values, in order. -/
  values : List (String × String) := []
  positionals : List String := []
  deriving DecidableEq, Repr

namespace Arguments

def setFlag (a : Arguments) (name : String) : Option Arguments :=
  if a.flags.contains name then none else some { a with flags := name :: a.flags }

/-- Sets flags by their short names. -/
def setShorts (spec : ArgumentSpec) : List Char → Arguments → Option Arguments
  | [], a => some a
  | c :: cs, a => do
    let name ← spec.shorts.lookup c
    setShorts spec cs (← a.setFlag name)

def setValue (spec : ArgumentSpec) (a : Arguments) (name value : String) : Option Arguments :=
  if spec.options.contains name && (a.values.lookup name).isSome then none
  else some { a with values := a.values ++ [(name, value)] }

def takesValue (spec : ArgumentSpec) (name : String) : Bool :=
  spec.options.contains name || spec.lists.contains name

/-- Starts with a dash and is not a single one. -/
def looksLikeOption (s : String) : Bool :=
  match s.toList with
  | '-' :: _ :: _ => true
  | _ => false

/-- Splits `name=value`. -/
def splitValue (cs : List Char) : String × Option String :=
  match cs.dropWhile (· != '=') with
  | [] => (String.ofList cs, none)
  | _ :: value => (String.ofList (cs.takeWhile (· != '=')), some (String.ofList value))

def scan (spec : ArgumentSpec) : List String → Arguments → Option Arguments
  | [], a => some a
  | arg :: rest, a =>
    match arg.toList with
    | '-' :: '-' :: [] => some { a with positionals := a.positionals ++ rest }
    | '-' :: '-' :: long =>
      match splitValue long with
      | (name, some value) =>
        if takesValue spec name then (a.setValue spec name value).bind (scan spec rest) else none
      | (name, none) =>
        if spec.flags.contains name then (a.setFlag name).bind (scan spec rest)
        else if takesValue spec name then
          match rest with
          | [] => none
          | value :: rest =>
            if looksLikeOption value then none
            else (a.setValue spec name value).bind (scan spec rest)
        else none
    | '-' :: c :: cs => (setShorts spec (c :: cs) a).bind (scan spec rest)
    | _ => scan spec rest { a with positionals := a.positionals ++ [arg] }

def parse? (spec : ArgumentSpec) (args : List String) : Option Arguments := scan spec args {}

def has (a : Arguments) (flag : String) : Bool := a.flags.contains flag

def value? (a : Arguments) (name : String) : Option String := a.values.lookup name

/-- All values of a repeatable option, in order. -/
def valuesOf (a : Arguments) (name : String) : List String :=
  (a.values.filter fun v => v.1 == name).map Prod.snd

end Arguments

end MaxSat

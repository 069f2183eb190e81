import MaxSat.Text

/-!
# Exact clause weights

A weight is a rational number and is never rounded. Its text is `p` when it is
integral and `p/q` in lowest terms otherwise. Reading also accepts decimal
tokens with a point and a decimal exponent; exponents beyond 308 in magnitude
are refused, and so are more than 2^32-1 digits behind the point.
-/

namespace MaxSat

abbrev Weight := Rat

namespace Weight

/-- The sum of a list of weights. -/
def total (ws : List Weight) : Weight := ws.foldr (fun w sum => w + sum) 0

/-- `numer / denom` for integers, unless the denominator is zero. -/
def ofRatio? (numer denom : Int) : Option Weight :=
  if denom = 0 then none else some (Rat.divInt numer denom)

/-- `p` for an integral weight, else `p/q` in lowest terms with the sign on `p`. -/
def render (w : Weight) : List Char :=
  if w.den = 1 then Text.ofInteger w.num
  else Text.ofInteger w.num ++ '/' :: Text.ofNatural w.den

def text (w : Weight) : String := String.ofList w.render

/-- The largest magnitude of a decimal exponent. -/
def maxExponent : Nat := 308

/-- The most digits that may stand behind a point. -/
def maxPlaces : Nat := 4294967295

/-- `n/d`, both integers with an optional sign and `d` not zero. -/
def fraction? (numer denom : List Char) : Option Weight := do
  let n ← Text.integer? numer
  let d ← Text.integer? denom
  ofRatio? n d

/-- An integer, or digits around a point: none needed before it, one up to `maxPlaces` after
it. The sign counts for the whole number, so `-0.5` is negative. -/
def mantissa? (cs : List Char) : Option Weight :=
  match Text.cutAt (· == '.') cs with
  | none => (Text.integer? cs).map fun n : Int => (n : Weight)
  | some (whole, places) =>
    if places.isEmpty || !places.all Char.isDigit || maxPlaces < places.length then none
    else (Text.integer? (whole ++ places)).map fun n => mkRat n (Nat.pow 10 places.length)

/-- An exponent of a decimal token: an integer of magnitude at most `maxExponent`. -/
def exponent? (cs : List Char) : Option Int :=
  (Text.integer? cs).filter fun e => e.natAbs ≤ maxExponent

/-- `w · 10 ^ e`. -/
def scale (w : Weight) (e : Int) : Weight :=
  let power : Weight := (Nat.pow 10 e.natAbs : Nat)
  if e < 0 then w / power else w * power

/-- A mantissa, optionally followed by `e` or `E` and an exponent. -/
def decimal? (cs : List Char) : Option Weight :=
  match Text.cutAt (fun c => c == 'e' || c == 'E') cs with
  | none => mantissa? cs
  | some (m, e) => do
    let exponent ← exponent? e
    let value ← mantissa? m
    return scale value exponent

/-- Reads a weight without rounding; blanks around it are ignored. A `/` makes it a
fraction, whatever else the text holds. -/
def parse? (cs : List Char) : Option Weight :=
  let body := Text.trim cs
  match Text.cutAt (· == '/') body with
  | some (n, d) => fraction? n d
  | none => decimal? body

end Weight

/-- A text that is no weight, as it was given. -/
structure WeightError where
  text : String
  deriving DecidableEq, Repr

def WeightError.message (e : WeightError) : String := "'" ++ e.text ++ "' is not a weight"

/-- Reads a weight; a refusal quotes the text with its blanks. -/
def Weight.ofString (s : String) : Except WeightError Weight :=
  match Weight.parse? s.toList with
  | some w => .ok w
  | none => .error ⟨s⟩

end MaxSat

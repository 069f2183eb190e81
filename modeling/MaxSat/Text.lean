/-!
# Texts

The text of an instance file is cut into lines, and a line into words by blanks.
A line ends at a line feed; the last one may lack it, and nothing after the last
line feed is no line. A carriage return stays with its line, where it is a blank.
Bytes are decoded line by line, so a line that is not valid UTF-8 leaves the lines
before it readable. The blanks are the characters with the Unicode property
`White_Space`, so a no-break space separates words and a zero-width space does not.

A natural number is one or more ASCII digits, leading zeros included; an integer
may carry one sign in front. Nothing else is accepted: no blank, no digit
separator, no second sign. A bound, where a token has one, is a condition on the
value and not on the number of digits.
-/

namespace MaxSat.Text

/-- The characters with the Unicode property `White_Space`. -/
def isBlank (c : Char) : Bool :=
  let n := c.toNat
  (0x09 ≤ n && n ≤ 0x0D) || n == 0x20 || n == 0x85 || n == 0xA0 || n == 0x1680 ||
    (0x2000 ≤ n && n ≤ 0x200A) || n == 0x2028 || n == 0x2029 || n == 0x202F ||
    n == 0x205F || n == 0x3000

/-- Drops the blanks at both ends. -/
def trim (cs : List Char) : List Char :=
  ((cs.dropWhile isBlank).reverse.dropWhile isBlank).reverse

/-- The longest runs of characters that are not blank, in order. -/
def words (cs : List Char) : List (List Char) :=
  (cs.splitOnP isBlank).filter fun w => !w.isEmpty

/-- Cuts at the first character that satisfies `p`, which belongs to neither part. -/
def cutAt (p : Char → Bool) (cs : List Char) : Option (List Char × List Char) :=
  match cs.dropWhile fun c => !p c with
  | [] => none
  | _ :: rest => some (cs.takeWhile fun c => !p c, rest)

/-- The value of one or more ASCII digits. -/
def natural? (cs : List Char) : Option Nat :=
  if cs.isEmpty || !cs.all Char.isDigit then none else some (Nat.ofDigitChars 10 cs 0)

/-- A natural number with an optional sign in front. -/
def integer? : List Char → Option Int
  | '-' :: cs => (natural? cs).map fun n => -(n : Int)
  | '+' :: cs => (natural? cs).map fun n => (n : Int)
  | cs => (natural? cs).map fun n => (n : Int)

/-- A natural number up to `bound`, with an optional `+` in front. -/
def count? (bound : Nat) (cs : List Char) : Option Nat :=
  let digits := match cs with
    | '+' :: rest => rest
    | rest => rest
  (natural? digits).filter fun n => n ≤ bound

/-- The shortest decimal text of a natural number. -/
def ofNatural (n : Nat) : List Char := Nat.toDigits 10 n

/-- The shortest decimal text of an integer; only a negative one has a sign. -/
def ofInteger (n : Int) : List Char :=
  if n < 0 then '-' :: ofNatural n.natAbs else ofNatural n.natAbs

/-- The characters of a line, or why it could not be read. -/
abbrev Line := Except String (List Char)

/-- The pieces between separators, without an empty one at the end. -/
def pieces {α : Type} [BEq α] (sep : α) (xs : List α) : List (List α) :=
  let ps := xs.splitOn sep
  match ps.getLast? with
  | some [] => ps.dropLast
  | _ => ps

def linesOfChars (cs : List Char) : List Line := (pieces '\n' cs).map .ok

def linesOfString (s : String) : List Line := linesOfChars s.toList

/-- Decodes the bytes of one line. -/
def decodeLine (bytes : List UInt8) : Line :=
  match String.fromUTF8? ⟨bytes.toArray⟩ with
  | some s => .ok s.toList
  | none => .error "stream did not contain valid UTF-8"

def linesOfBytes (bytes : List UInt8) : List Line := (pieces 10 bytes).map decodeLine

end MaxSat.Text

/-!
# A seeded stream of words

The ChaCha block function with eight rounds in counter mode. A 64-bit seed is
stretched to the 256-bit key by eight steps of a permuted congruential
generator. Words of a block are used in order, blocks in order of the counter.
-/

namespace MaxSat

structure KeyStream where
  key : Array UInt32
  /-- The number of the next block. -/
  counter : UInt64 := 0
  /-- Words of the current block that are still unused. -/
  pending : List UInt32 := []

namespace KeyStream

def rotateLeft (x : UInt32) (n : UInt32) : UInt32 := (x <<< n) ||| (x >>> (32 - n))

def rotateRight (x : UInt32) (n : UInt32) : UInt32 :=
  if n % 32 = 0 then x else (x >>> n) ||| (x <<< (32 - n))

/-- One step of the generator that stretches a seed: the next state and its word. -/
def stretchStep (state : UInt64) : UInt64 × UInt32 :=
  let next := state * 6364136223846793005 + 11634580027462260723
  let x := (((next >>> 18) ^^^ next) >>> 27).toUInt32
  (next, rotateRight x (next >>> 59).toUInt32)

def stretch : Nat → UInt64 → List UInt32
  | 0, _ => []
  | n + 1, state =>
    let (next, word) := stretchStep state
    word :: stretch n next

/-- The four words at the given places go through one quarter round. -/
def quarterRound (s : Array UInt32) (i j k l : Nat) : Array UInt32 :=
  let a := s.getD i 0
  let b := s.getD j 0
  let c := s.getD k 0
  let d := s.getD l 0
  let a := a + b
  let d := rotateLeft (d ^^^ a) 16
  let c := c + d
  let b := rotateLeft (b ^^^ c) 12
  let a := a + b
  let d := rotateLeft (d ^^^ a) 8
  let c := c + d
  let b := rotateLeft (b ^^^ c) 7
  (((s.setIfInBounds i a).setIfInBounds j b).setIfInBounds k c).setIfInBounds l d

/-- The columns, then the diagonals. -/
def doubleRound (s : Array UInt32) : Array UInt32 :=
  let s := quarterRound s 0 4 8 12
  let s := quarterRound s 1 5 9 13
  let s := quarterRound s 2 6 10 14
  let s := quarterRound s 3 7 11 15
  let s := quarterRound s 0 5 10 15
  let s := quarterRound s 1 6 11 12
  let s := quarterRound s 2 7 8 13
  quarterRound s 3 4 9 14

/-- The words of one block: four double rounds, and the input added at the end. -/
def block (key : Array UInt32) (counter : UInt64) : List UInt32 :=
  let input := (#[0x61707865, 0x3320646e, 0x79622d32, 0x6b206574] : Array UInt32) ++ key ++
    #[counter.toUInt32, (counter >>> 32).toUInt32, 0, 0]
  let mixed := doubleRound (doubleRound (doubleRound (doubleRound input)))
  (List.zip mixed.toList input.toList).map fun (a, b) => a + b

def ofSeed (seed : UInt64) : KeyStream := { key := (stretch 8 seed).toArray }

/-- The next 32-bit word. -/
def next (s : KeyStream) : UInt32 × KeyStream :=
  match s.pending with
  | w :: rest => (w, { s with pending := rest })
  | [] =>
    match block s.key s.counter with
    | w :: rest => (w, { s with counter := s.counter + 1, pending := rest })
    | [] => (0, s)

/-- The next two words as one, the first of them the low half. -/
def nextWide (s : KeyStream) : Nat × KeyStream :=
  let (low, s) := s.next
  let (high, s) := s.next
  (high.toNat * 4294967296 + low.toNat, s)

end KeyStream

end MaxSat

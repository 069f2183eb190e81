import MaxSat.Random.KeyStream

/-!
# Sources of random choices

What the instance generator asks for: coin flips, and numbers between two
bounds. The size of the machine word that a number is drawn from decides how
much of a stream it uses up, so it is part of the request.

The stream's own numbers come from a widening multiplication: the high half of
the product of a word with the size of the range, corrected by a second word
when the low half could carry.
-/

namespace MaxSat

inductive WordSize where
  | bits32
  | bits64
  deriving DecidableEq, Repr

/-- The number of values of a word. -/
def WordSize.values : WordSize → Nat
  | bits32 => 4294967296
  | bits64 => 18446744073709551616

/-- Positions and counts are drawn from the small word where it suffices. -/
def WordSize.forCount (hi : Nat) : WordSize := if hi < 4294967296 then .bits32 else .bits64

class ChoiceSource (γ : Type) where
  flip : γ → Bool × γ
  /-- A number from the first bound up to the second, both included. -/
  pick : γ → WordSize → Nat → Nat → Nat × γ

/-- A source that stays within the bounds it is asked for. -/
def ChoiceSource.Bounded (γ : Type) [ChoiceSource γ] : Prop :=
  ∀ (g : γ) (size : WordSize) (lo hi : Nat), lo ≤ hi →
    lo ≤ (pick g size lo hi).1 ∧ (pick g size lo hi).1 ≤ hi

namespace KeyStream

def word (s : KeyStream) : WordSize → Nat × KeyStream
  | .bits32 => let (w, s) := s.next; (w.toNat, s)
  | .bits64 => s.nextWide

/-- The top bit of the next word. -/
def flip (s : KeyStream) : Bool × KeyStream :=
  let (w, s) := s.next
  (2147483648 ≤ w.toNat, s)

/-- A word is drawn even if there is only one number to choose. -/
def pick (s : KeyStream) (size : WordSize) (lo hi : Nat) : Nat × KeyStream :=
  let n := size.values
  let range := (hi - lo + 1) % n
  let (w, s) := s.word size
  if range = 0 then (lo + w, s)
  else
    let high := w * range / n
    let low := w * range % n
    if n - range < low then
      let (v, s) := s.word size
      let carry := if n ≤ low + v * range / n then 1 else 0
      (lo + high + carry, s)
    else (lo + high, s)

end KeyStream

instance : ChoiceSource KeyStream where
  flip := KeyStream.flip
  pick := KeyStream.pick

end MaxSat

import Mathlib.Data.Rat.Defs
import Mathlib.Tactic.Common
import MaxSat.Proofs.Text.Words
import MaxSat.Weight

/-!
# Numerals and the text of weights

What counts as a numeral is said here by its characters: digits, in front of them
at most one sign, and a value. The readers of numerals accept exactly these. The
writers give one of them for each number, so a number that is written is read
back, and so is a weight, whose text is one integer or two of them in lowest
terms.
-/

namespace MaxSat

namespace Text

/-- One or more ASCII digits of value `n`, leading zeros included. -/
structure Digits (cs : List Char) (n : Nat) : Prop where
  nonempty : cs ≠ []
  digits : ∀ c ∈ cs, c.isDigit = true
  value : Nat.ofDigitChars 10 cs 0 = n

/-- Digits with at most one sign in front. -/
inductive IsInteger : List Char → Int → Prop
  | plain {cs : List Char} {n : Nat} (digits : Digits cs n) : IsInteger cs n
  | plus {cs : List Char} {n : Nat} (digits : Digits cs n) : IsInteger ('+' :: cs) n
  | minus {cs : List Char} {n : Nat} (digits : Digits cs n) : IsInteger ('-' :: cs) (-n)

/-- Digits of value up to `bound` with at most a plus in front. -/
inductive IsCount (bound : Nat) : List Char → Nat → Prop
  | plain {cs : List Char} {n : Nat} (digits : Digits cs n) (le : n ≤ bound) : IsCount bound cs n
  | plus {cs : List Char} {n : Nat} (digits : Digits cs n) (le : n ≤ bound) :
      IsCount bound ('+' :: cs) n

theorem natural?_eq_some_iff {cs : List Char} {n : Nat} : natural? cs = some n ↔ Digits cs n := by
  rw [natural?]
  constructor
  · intro read
    split at read
    · cases read
    · rename_i ok
      simp only [Bool.or_eq_true, Bool.not_eq_true', not_or, Bool.not_eq_false] at ok
      refine ⟨by simpa using ok.1, by simpa using ok.2, by simpa using read⟩
  · rintro ⟨nonempty, digits, value⟩
    have ok : (cs.isEmpty || !cs.all Char.isDigit) = false := by simpa [nonempty] using digits
    simp [ok, value]

/-- A sign is no digit. -/
theorem Digits.head_ne {cs : List Char} {n : Nat} (digits : Digits cs n) {c : Char}
    (sign : c.isDigit = false) (rest : List Char) : cs ≠ c :: rest := by
  rintro rfl
  have := digits.digits c (by simp)
  simp [sign] at this

theorem integer?_eq_some_iff {cs : List Char} {n : Int} :
    integer? cs = some n ↔ IsInteger cs n := by
  constructor
  · intro read
    unfold integer? at read
    split at read
    · rename_i ds
      obtain ⟨m, digits, rfl⟩ : ∃ m, Digits ds m ∧ -(m : Int) = n := by
        simpa [Option.bind_eq_some_iff, natural?_eq_some_iff] using read
      exact .minus digits
    · rename_i ds
      obtain ⟨m, digits, rfl⟩ : ∃ m, Digits ds m ∧ (m : Int) = n := by
        simpa [Option.bind_eq_some_iff, natural?_eq_some_iff] using read
      exact .plus digits
    · obtain ⟨m, digits, rfl⟩ : ∃ m, Digits cs m ∧ (m : Int) = n := by
        simpa [Option.bind_eq_some_iff, natural?_eq_some_iff] using read
      exact .plain digits
  · rintro (⟨digits⟩ | ⟨digits⟩ | ⟨digits⟩)
    · unfold integer?
      split
      · exact absurd rfl (digits.head_ne (by decide) _)
      · exact absurd rfl (digits.head_ne (by decide) _)
      · simp [natural?_eq_some_iff.mpr digits]
    · simp [integer?, natural?_eq_some_iff.mpr digits]
    · simp [integer?, natural?_eq_some_iff.mpr digits]

theorem count?_eq_some_iff {bound : Nat} {cs : List Char} {n : Nat} :
    count? bound cs = some n ↔ IsCount bound cs n := by
  unfold count?
  simp only [Option.filter_eq_some_iff, natural?_eq_some_iff, decide_eq_true_eq]
  constructor
  · rintro ⟨digits, le⟩
    split at digits
    · exact .plus digits le
    · exact .plain digits le
  · rintro (⟨digits, le⟩ | ⟨digits, le⟩)
    · split
      · exact absurd rfl (digits.head_ne (by decide) _)
      · exact ⟨digits, le⟩
    · exact ⟨digits, le⟩

/-- An integer is spelt with digits and signs. -/
theorem IsInteger.mem {cs : List Char} {n : Int} (integer : IsInteger cs n) {c : Char}
    (mem : c ∈ cs) : c = '+' ∨ c = '-' ∨ c.isDigit = true := by
  cases integer with
  | plain digits => exact Or.inr (Or.inr (digits.digits c mem))
  | plus digits =>
    rcases List.mem_cons.mp mem with sign | mem
    · exact Or.inl sign
    · exact Or.inr (Or.inr (digits.digits c mem))
  | minus digits =>
    rcases List.mem_cons.mp mem with sign | mem
    · exact Or.inr (Or.inl sign)
    · exact Or.inr (Or.inr (digits.digits c mem))

theorem digits_ofNatural (n : Nat) : Digits (ofNatural n) n :=
  ⟨Nat.toDigits_ne_nil, fun _ mem => Nat.isDigit_of_mem_toDigits (by decide) (by decide) mem,
    Nat.ofDigitChars_ten_toDigits⟩

theorem isInteger_ofInteger (n : Int) : IsInteger (ofInteger n) n := by
  rw [ofInteger]
  have digits := digits_ofNatural n.natAbs
  by_cases negative : n < 0
  · rw [if_pos negative]
    have value : -(n.natAbs : Int) = n := by omega
    have minus := IsInteger.minus digits
    rwa [value] at minus
  · rw [if_neg negative]
    have value : (n.natAbs : Int) = n := by omega
    have plain := IsInteger.plain digits
    rwa [value] at plain

theorem isBlank_of_isDigit {c : Char} (digit : c.isDigit = true) : isBlank c = false := by
  simp only [Char.isDigit, Bool.and_eq_true, decide_eq_true_eq, ge_iff_le, UInt32.le_iff_toNat_le]
    at digit
  obtain ⟨low, high⟩ := digit
  change 48 ≤ c.toNat at low
  change c.toNat ≤ 57 at high
  simp only [isBlank, Bool.or_eq_false_iff, Bool.and_eq_false_iff, decide_eq_false_iff_not,
    beq_eq_false_iff_ne]
  omega

theorem isWord_ofNatural (n : Nat) : IsWord (ofNatural n) :=
  ⟨(digits_ofNatural n).nonempty,
    fun c mem => isBlank_of_isDigit ((digits_ofNatural n).digits c mem)⟩

/-- A written integer has digits, and a minus if it is negative. -/
theorem mem_ofInteger {n : Int} {c : Char} (mem : c ∈ ofInteger n) :
    c = '-' ∨ c.isDigit = true := by
  rw [ofInteger] at mem
  split at mem
  · rcases List.mem_cons.mp mem with minus | mem
    · exact Or.inl minus
    · exact Or.inr ((digits_ofNatural _).digits c mem)
  · exact Or.inr ((digits_ofNatural _).digits c mem)

theorem ne_of_mem_ofInteger {n : Int} {c d : Char} (mem : c ∈ ofInteger n) (minus : d ≠ '-')
    (digit : d.isDigit = false) : c ≠ d := by
  rintro rfl
  rcases mem_ofInteger mem with same | other
  · exact minus same
  · simp [digit] at other

theorem isWord_ofInteger (n : Int) : IsWord (ofInteger n) := by
  constructor
  · rw [ofInteger]
    split
    · simp
    · exact (digits_ofNatural _).nonempty
  · intro c mem
    rcases mem_ofInteger mem with rfl | digit
    · rfl
    · exact isBlank_of_isDigit digit

theorem cutAt_eq_none {p : Char → Bool} {cs : List Char} (clean : ∀ c ∈ cs, p c = false) :
    cutAt p cs = none := by
  have none_left : (cs.dropWhile fun c => !p c) = [] := by
    simpa using clean
  rw [cutAt, none_left]

theorem cutAt_append {p : Char → Bool} {xs ys : List Char} {c : Char}
    (clean : ∀ c ∈ xs, p c = false) (cut : p c = true) :
    cutAt p (xs ++ c :: ys) = some (xs, ys) := by
  have left : ∀ c ∈ xs, (!p c) = true := fun c mem => by simp [clean c mem]
  rw [cutAt, List.dropWhile_append_of_pos left, List.takeWhile_append_of_pos left]
  simp [cut]

theorem cutAt_eq_some_iff {p : Char → Bool} {cs xs ys : List Char} :
    cutAt p cs = some (xs, ys) ↔
      ∃ c, p c = true ∧ (∀ x ∈ xs, p x = false) ∧ cs = xs ++ c :: ys := by
  constructor
  · intro cut
    rw [cutAt] at cut
    split at cut
    · cases cut
    · rename_i c rest left
      cases cut
      have stopped := List.head?_dropWhile_not (fun x => !p x) cs
      rw [left] at stopped
      refine ⟨c, by simpa using stopped, ?_, ?_⟩
      · intro x mem
        simpa using List.mem_takeWhile_imp mem
      · rw [← left, List.takeWhile_append_dropWhile]
  · rintro ⟨c, separates, clean, rfl⟩
    exact cutAt_append clean separates

end Text

namespace Weight

open Text

theorem isWord_render (w : Weight) : IsWord w.render := by
  have word := isWord_ofInteger w.num
  rw [render]
  split
  · exact word
  · refine ⟨by simp, ?_⟩
    intro c mem
    rcases List.mem_append.mp mem with mem | mem
    · exact word.solid c mem
    · rcases List.mem_cons.mp mem with rfl | mem
      · rfl
      · exact (isWord_ofNatural w.den).solid c mem

theorem decimal?_ofInteger (n : Int) : decimal? (ofInteger n) = some (n : Weight) := by
  have noExponent : cutAt (fun c => c == 'e' || c == 'E') (ofInteger n) = none := by
    apply cutAt_eq_none
    intro c mem
    simp [ne_of_mem_ofInteger mem (d := 'e'), ne_of_mem_ofInteger mem (d := 'E')]
  have noPoint : cutAt (· == '.') (ofInteger n) = none := by
    apply cutAt_eq_none
    intro c mem
    simp [ne_of_mem_ofInteger mem (d := '.')]
  rw [decimal?, noExponent]
  simp [mantissa?, noPoint, integer?_eq_some_iff.mpr (isInteger_ofInteger n)]

/-- A weight that is written is read back. -/
theorem parse?_render (w : Weight) : parse? w.render = some w := by
  have noBar : ∀ c ∈ ofInteger w.num, (c == '/') = false := by
    intro c mem
    simp [ne_of_mem_ofInteger mem (d := '/')]
  rw [parse?, trim_of_trimmed (isWord_render w).trimmed, render]
  by_cases whole : w.den = 1
  · simp only [if_pos whole, cutAt_eq_none noBar, decimal?_ofInteger]
    exact congrArg some (Rat.coe_int_num_of_den_eq_one whole)
  · have denom : integer? (ofNatural w.den) = some (w.den : Int) :=
      integer?_eq_some_iff.mpr (.plain (digits_ofNatural w.den))
    simp only [if_neg whole, cutAt_append (c := '/') noBar rfl]
    simp [fraction?, integer?_eq_some_iff.mpr (isInteger_ofInteger w.num), denom, ofRatio?]

end Weight

end MaxSat

import Mathlib.Algebra.Field.Rat
import Mathlib.Tactic.FieldSimp
import Mathlib.Tactic.Ring
import MaxSat.Proofs.Text.Numeral

/-!
# The grammar of weights

What spells a weight, said without a reader: two integers around a bar, or a
mantissa that may be followed by a decimal exponent. A mantissa is an integer, or
has a point with digits behind it. Each form has the rational value that it has in
arithmetic, so nothing is rounded. Reading accepts exactly these texts, with blanks
around them, and refuses every other text by quoting it.

The sign of a mantissa stands in front of all its digits. The reader takes the
point out and reads the digits on both sides as one integer, which keeps the sign
also where the digits before the point are zero or missing.
-/

namespace MaxSat.Weight

open Text

/-- At most one sign. -/
inductive IsSign : List Char → Int → Prop
  | none : IsSign [] 1
  | plus : IsSign ['+'] 1
  | minus : IsSign ['-'] (-1)

/-- An integer, or a sign, digits, a point and more digits. Only the digits behind the point
have to be there. -/
inductive IsMantissa : List Char → Weight → Prop
  | integer {cs : List Char} {n : Int} (integer : IsInteger cs n) : IsMantissa cs n
  | point {s xs ys : List Char} {σ : Int} {p : Nat} (sign : IsSign s σ)
      (whole : ∀ c ∈ xs, c.isDigit = true) (places : Digits ys p)
      (short : ys.length ≤ maxPlaces) :
      IsMantissa (s ++ xs ++ '.' :: ys) (σ * (Nat.ofDigitChars 10 xs 0 + p / 10 ^ ys.length))

/-- A text without blanks around it and the weight that it spells. -/
inductive Spells : List Char → Weight → Prop
  | fraction {xs ys : List Char} {n d : Int} (numer : IsInteger xs n) (denom : IsInteger ys d)
      (nonzero : d ≠ 0) : Spells (xs ++ '/' :: ys) (n / d)
  | plain {xs : List Char} {w : Weight} (mantissa : IsMantissa xs w) : Spells xs w
  | scaled {xs ys : List Char} {w : Weight} {mark : Char} {e : Int} (mantissa : IsMantissa xs w)
      (marked : mark = 'e' ∨ mark = 'E') (exponent : IsInteger ys e)
      (limit : e.natAbs ≤ maxExponent) : Spells (xs ++ mark :: ys) (w * 10 ^ e)

/-- A text that spells a weight between blanks. -/
def SpellsPadded (cs : List Char) (w : Weight) : Prop :=
  ∃ front body back, cs = front ++ body ++ back ∧ (∀ c ∈ front, isBlank c = true) ∧
    Spells body w ∧ ∀ c ∈ back, isBlank c = true

theorem IsMantissa.mem {cs : List Char} {w : Weight} (mantissa : IsMantissa cs w) {c : Char}
    (mem : c ∈ cs) : c = '.' ∨ c = '+' ∨ c = '-' ∨ c.isDigit = true := by
  cases mantissa with
  | integer integer => exact Or.inr (integer.mem mem)
  | point sign whole places short =>
    simp only [List.mem_append, List.mem_cons] at mem
    rcases mem with (mem | mem) | point | mem
    · cases sign with
      | none => cases mem
      | plus => exact Or.inr (Or.inl (List.mem_singleton.mp mem))
      | minus => exact Or.inr (Or.inr (Or.inl (List.mem_singleton.mp mem)))
    · exact Or.inr (Or.inr (Or.inr (whole c mem)))
    · exact Or.inl point
    · exact Or.inr (Or.inr (Or.inr (places.digits c mem)))

theorem IsMantissa.forall_ne {cs : List Char} {w : Weight} (mantissa : IsMantissa cs w) {d : Char}
    (other : ¬ (d = '.' ∨ d = '+' ∨ d = '-' ∨ d.isDigit = true)) : ∀ c ∈ cs, c ≠ d := by
  rintro c mem rfl
  exact other (mantissa.mem mem)

theorem isBlank_of_isMantissa {cs : List Char} {w : Weight} (mantissa : IsMantissa cs w) {c : Char}
    (mem : c ∈ cs) : isBlank c = false := by
  rcases mantissa.mem mem with rfl | rfl | rfl | digit
  · rfl
  · rfl
  · rfl
  · exact isBlank_of_isDigit digit

theorem isBlank_of_isInteger {cs : List Char} {n : Int} (integer : IsInteger cs n) {c : Char}
    (mem : c ∈ cs) : isBlank c = false :=
  isBlank_of_isMantissa (.integer integer) mem

theorem Spells.isBlank_of_mem {cs : List Char} {w : Weight} (spells : Spells cs w) {c : Char}
    (mem : c ∈ cs) : isBlank c = false := by
  cases spells with
  | fraction numer denom _ =>
    simp only [List.mem_append, List.mem_cons] at mem
    rcases mem with mem | rfl | mem
    · exact isBlank_of_isInteger numer mem
    · rfl
    · exact isBlank_of_isInteger denom mem
  | plain mantissa => exact isBlank_of_isMantissa mantissa mem
  | scaled mantissa marked exponent _ =>
    simp only [List.mem_append, List.mem_cons] at mem
    rcases mem with mem | rfl | mem
    · exact isBlank_of_isMantissa mantissa mem
    · rcases marked with rfl | rfl
      · rfl
      · rfl
    · exact isBlank_of_isInteger exponent mem

theorem Spells.trimmed {cs : List Char} {w : Weight} (spells : Spells cs w) : Trimmed cs :=
  ⟨fun _ first => spells.isBlank_of_mem (List.mem_of_mem_head? first),
    fun _ last => spells.isBlank_of_mem (List.mem_of_mem_getLast? last)⟩

theorem spellsPadded_iff {cs : List Char} {w : Weight} :
    SpellsPadded cs w ↔ Spells (trim cs) w := by
  constructor
  · rintro ⟨front, body, back, rfl, before, spells, after⟩
    rwa [trim_append before spells.trimmed after]
  · intro spells
    obtain ⟨front, back, eq, before, after⟩ := exists_trim cs
    exact ⟨front, trim cs, back, eq, before, spells, after⟩

/-- A power as the running definitions compute it. -/
theorem cast_pow_ten (k : Nat) : ((Nat.pow 10 k : Nat) : Weight) = 10 ^ k := by
  rw [Nat.pow_eq, Nat.cast_pow, Nat.cast_ofNat]

/-- Digits in front of a number count ten times for each of its places. -/
theorem value_append (xs ys : List Char) :
    Nat.ofDigitChars 10 (xs ++ ys) 0 =
      Nat.ofDigitChars 10 xs 0 * 10 ^ ys.length + Nat.ofDigitChars 10 ys 0 := by
  rw [Nat.ofDigitChars_append, Nat.ofDigitChars_eq_ofDigitChars_zero, Nat.mul_comm]

theorem digits_append_iff {xs ys : List Char} {n p : Nat} (places : Digits ys p) :
    Digits (xs ++ ys) n ↔ (∀ c ∈ xs, c.isDigit = true) ∧
      n = Nat.ofDigitChars 10 xs 0 * 10 ^ ys.length + p := by
  constructor
  · rintro ⟨-, digits, rfl⟩
    refine ⟨fun c mem => digits c (List.mem_append_left ys mem), ?_⟩
    rw [value_append, places.value]
  · rintro ⟨whole, rfl⟩
    refine ⟨by simp [places.nonempty], ?_, by rw [value_append, places.value]⟩
    intro c mem
    rcases List.mem_append.mp mem with mem | mem
    · exact whole c mem
    · exact places.digits c mem

/-- With the point taken out a mantissa is one integer, and its sign is that of all digits. -/
theorem isInteger_append_iff {ds ys : List Char} {p : Nat} {n : Int} (places : Digits ys p) :
    IsInteger (ds ++ ys) n ↔ ∃ s xs σ, ds = s ++ xs ∧ IsSign s σ ∧
      (∀ c ∈ xs, c.isDigit = true) ∧
      n = σ * (Nat.ofDigitChars 10 xs 0 * 10 ^ ys.length + p : Nat) := by
  constructor
  · intro integer
    generalize eq : ds ++ ys = cs at integer
    cases integer with
    | plain digits =>
      rw [← eq] at digits
      obtain ⟨whole, rfl⟩ := (digits_append_iff places).mp digits
      exact ⟨[], ds, 1, rfl, .none, whole, by rw [one_mul]⟩
    | @plus cs m digits =>
      cases ds with
      | nil => exact absurd eq (places.head_ne (by decide) cs)
      | cons c ds =>
        obtain ⟨rfl, rfl⟩ := List.cons.inj eq
        obtain ⟨whole, rfl⟩ := (digits_append_iff places).mp digits
        exact ⟨['+'], ds, 1, rfl, .plus, whole, by rw [one_mul]⟩
    | @minus cs m digits =>
      cases ds with
      | nil => exact absurd eq (places.head_ne (by decide) cs)
      | cons c ds =>
        obtain ⟨rfl, rfl⟩ := List.cons.inj eq
        obtain ⟨whole, rfl⟩ := (digits_append_iff places).mp digits
        exact ⟨['-'], ds, -1, rfl, .minus, whole, by rw [neg_one_mul]⟩
  · rintro ⟨s, xs, σ, rfl, sign, whole, rfl⟩
    have digits := (digits_append_iff places).mpr ⟨whole, rfl⟩
    cases sign with
    | none =>
      rw [one_mul]
      exact .plain digits
    | plus =>
      rw [one_mul]
      exact .plus digits
    | minus =>
      rw [neg_one_mul]
      exact .minus digits

/-- Moving the point over the places divides by a power of ten. -/
theorem mkRat_places (σ : Int) (n p k : Nat) :
    mkRat (σ * (n * 10 ^ k + p : Nat)) (Nat.pow 10 k) = (σ * (n + p / 10 ^ k) : Weight) := by
  have power : (10 : Weight) ^ k ≠ 0 := pow_ne_zero k (by norm_num)
  rw [Rat.mkRat_eq_div, cast_pow_ten]
  push_cast
  field_simp

theorem mantissa?_eq_some_iff {cs : List Char} {w : Weight} :
    mantissa? cs = some w ↔ IsMantissa cs w := by
  rw [mantissa?]
  constructor
  · intro read
    split at read
    · obtain ⟨n, integer, rfl⟩ := Option.map_eq_some_iff.mp read
      exact .integer (integer?_eq_some_iff.mp integer)
    · rename_i ds ys cut
      obtain ⟨c, point, -, rfl⟩ := cutAt_eq_some_iff.mp cut
      obtain rfl := beq_iff_eq.mp point
      split at read
      · cases read
      · rename_i accepted
        simp only [Bool.or_eq_true, Bool.not_eq_true', not_or, Bool.not_eq_false,
          decide_eq_true_eq, not_lt] at accepted
        obtain ⟨⟨nonempty, digits⟩, short⟩ := accepted
        have places : Digits ys (Nat.ofDigitChars 10 ys 0) :=
          ⟨by simpa using nonempty, by simpa using digits, rfl⟩
        obtain ⟨n, integer, rfl⟩ := Option.map_eq_some_iff.mp read
        obtain ⟨s, xs, σ, rfl, sign, whole, rfl⟩ :=
          (isInteger_append_iff places).mp (integer?_eq_some_iff.mp integer)
        rw [mkRat_places]
        exact .point sign whole places short
  · rintro (⟨integer⟩ | ⟨sign, whole, places, short⟩)
    · have uncut : cutAt (· == '.') cs = none := by
        refine cutAt_eq_none fun c mem => beq_eq_false_iff_ne.mpr ?_
        rintro rfl
        exact absurd (integer.mem mem) (by decide)
      simp [uncut, integer?_eq_some_iff.mpr integer]
    · rename_i s xs ys σ p
      have noPoint : ∀ c ∈ s ++ xs, (c == '.') = false := by
        intro c mem
        rcases List.mem_append.mp mem with mem | mem
        · cases sign with
          | none => cases mem
          | plus => simp [List.mem_singleton.mp mem]
          | minus => simp [List.mem_singleton.mp mem]
        · refine beq_eq_false_iff_ne.mpr ?_
          rintro rfl
          simpa using whole '.' mem
      have accepted : (ys.isEmpty || !ys.all Char.isDigit || decide (maxPlaces < ys.length)) =
          false := by
        simpa [places.nonempty, short] using places.digits
      have integer := integer?_eq_some_iff.mpr
        ((isInteger_append_iff places).mpr ⟨s, xs, σ, rfl, sign, whole, rfl⟩)
      simp only [cutAt_append (c := '.') noPoint rfl, accepted, Bool.false_eq_true, if_false,
        integer, Option.map_some, mkRat_places]

theorem scale_eq (w : Weight) (e : Int) : scale w e = w * 10 ^ e := by
  rw [scale, cast_pow_ten]
  by_cases negative : e < 0
  · have size : e = -(e.natAbs : Int) := by omega
    rw [if_pos negative]
    nth_rewrite 2 [size]
    rw [zpow_neg, zpow_natCast, div_eq_mul_inv]
  · have size : e = (e.natAbs : Int) := by omega
    rw [if_neg negative]
    nth_rewrite 2 [size]
    rw [zpow_natCast]

theorem exponent?_eq_some_iff {cs : List Char} {e : Int} :
    exponent? cs = some e ↔ IsInteger cs e ∧ e.natAbs ≤ maxExponent := by
  rw [exponent?, Option.filter_eq_some_iff, integer?_eq_some_iff, decide_eq_true_eq]

theorem fraction?_eq_some_iff {xs ys : List Char} {w : Weight} :
    fraction? xs ys = some w ↔
      ∃ n d : Int, IsInteger xs n ∧ IsInteger ys d ∧ d ≠ 0 ∧ w = n / d := by
  simp only [fraction?, Option.bind_eq_bind, Option.bind_eq_some_iff, integer?_eq_some_iff,
    ofRatio?]
  constructor
  · rintro ⟨n, numer, d, denom, made⟩
    obtain ⟨nonzero, value⟩ := Option.ite_none_left_eq_some.mp made
    refine ⟨n, d, numer, denom, nonzero, ?_⟩
    rw [← Rat.divInt_eq_div]
    exact (Option.some.inj value).symm
  · rintro ⟨n, d, numer, denom, nonzero, rfl⟩
    refine ⟨n, numer, d, denom, ?_⟩
    rw [if_neg nonzero, Rat.divInt_eq_div]

/-- A text without a bar spells a mantissa or a mantissa with an exponent. -/
theorem decimal?_eq_some_iff {cs : List Char} {w : Weight} :
    decimal? cs = some w ↔ IsMantissa cs w ∨
      ∃ xs mark ys m e, cs = xs ++ mark :: ys ∧ IsMantissa xs m ∧ (mark = 'e' ∨ mark = 'E') ∧
        IsInteger ys e ∧ e.natAbs ≤ maxExponent ∧ w = m * 10 ^ e := by
  have unmarked : ∀ {xs : List Char} {m : Weight}, IsMantissa xs m →
      ∀ c ∈ xs, (c == 'e' || c == 'E') = false := by
    intro xs m mantissa c mem
    have small := mantissa.forall_ne (d := 'e') (by decide) c mem
    have large := mantissa.forall_ne (d := 'E') (by decide) c mem
    simp [small, large]
  rw [decimal?]
  constructor
  · intro read
    split at read
    · exact Or.inl (mantissa?_eq_some_iff.mp read)
    · rename_i xs ys cut
      obtain ⟨mark, marked, -, rfl⟩ := cutAt_eq_some_iff.mp cut
      simp only [Option.bind_eq_bind, Option.bind_eq_some_iff, exponent?_eq_some_iff,
        mantissa?_eq_some_iff] at read
      obtain ⟨e, ⟨exponent, limit⟩, m, mantissa, value⟩ := read
      refine Or.inr ⟨xs, mark, ys, m, e, rfl, mantissa, by simpa using marked, exponent, limit, ?_⟩
      rw [← scale_eq]
      exact (Option.some.inj value).symm
  · rintro (mantissa | ⟨xs, mark, ys, m, e, rfl, mantissa, marked, exponent, limit, rfl⟩)
    · rw [cutAt_eq_none (unmarked mantissa)]
      exact mantissa?_eq_some_iff.mpr mantissa
    · rw [cutAt_append (unmarked mantissa) (by simpa using marked)]
      simp [exponent?_eq_some_iff.mpr ⟨exponent, limit⟩, mantissa?_eq_some_iff.mpr mantissa,
        scale_eq]

theorem parse?_eq_some_iff {cs : List Char} {w : Weight} :
    parse? cs = some w ↔ SpellsPadded cs w := by
  have noBar : ∀ {xs : List Char} {m : Weight}, IsMantissa xs m → ∀ c ∈ xs, (c == '/') = false :=
    fun mantissa c mem => beq_eq_false_iff_ne.mpr (mantissa.forall_ne (by decide) c mem)
  rw [spellsPadded_iff, parse?]
  generalize trim cs = body
  constructor
  · intro read
    split at read
    · rename_i xs ys cut
      obtain ⟨c, bar, -, rfl⟩ := cutAt_eq_some_iff.mp cut
      obtain rfl := beq_iff_eq.mp bar
      obtain ⟨n, d, numer, denom, nonzero, rfl⟩ := fraction?_eq_some_iff.mp read
      exact .fraction numer denom nonzero
    · obtain mantissa | ⟨xs, mark, ys, m, e, rfl, mantissa, marked, exponent, limit, rfl⟩ :=
        decimal?_eq_some_iff.mp read
      · exact .plain mantissa
      · exact .scaled mantissa marked exponent limit
  · rintro (⟨numer, denom, nonzero⟩ | ⟨mantissa⟩ | ⟨mantissa, marked, exponent, limit⟩)
    · simp only [cutAt_append (c := '/') (noBar (.integer numer)) rfl]
      exact fraction?_eq_some_iff.mpr ⟨_, _, numer, denom, nonzero, rfl⟩
    · simp only [cutAt_eq_none (noBar mantissa)]
      exact decimal?_eq_some_iff.mpr (Or.inl mantissa)
    · rename_i xs ys m mark e
      have uncut : cutAt (· == '/') (xs ++ mark :: ys) = none := by
        apply cutAt_eq_none
        intro c mem
        simp only [List.mem_append, List.mem_cons] at mem
        rcases mem with mem | rfl | mem
        · exact noBar mantissa c mem
        · rcases marked with rfl | rfl
          · rfl
          · rfl
        · exact noBar (.integer exponent) c mem
      simp only [uncut]
      exact decimal?_eq_some_iff.mpr
        (Or.inr ⟨xs, mark, ys, m, e, rfl, mantissa, marked, exponent, limit, rfl⟩)

/-- A text is read as a weight exactly if it spells the weight between blanks; any other text
is quoted in the refusal, blanks included. -/
theorem ofString_follows_grammar (s : String) :
    (∀ w, ofString s = .ok w ↔ SpellsPadded s.toList w) ∧
      ∀ e, ofString s = .error e ↔ (∀ w, ¬ SpellsPadded s.toList w) ∧ e = ⟨s⟩ := by
  simp only [← parse?_eq_some_iff, ofString]
  cases parse? s.toList with
  | none => simp [eq_comm]
  | some w => simp

/-- The sign of a number below one, a place of its own for the exponent's sign, and blanks of
two kinds. -/
example : ofString "\u00a0-.5E+1\t" = .ok (-5) ∧ ofString "-0.50" = ofString "2/-4" ∧
    ofString " 1e309" = .error ⟨" 1e309"⟩ ∧ ofString "+-1" = .error ⟨"+-1"⟩ := by
  decide +kernel

end MaxSat.Weight

import MaxSat.Proofs.Weight.Grammar

/-!
# The text of a weight is canonical

Weights are read, made of integers, added, subtracted, negated and summed up.
Beside each weight that comes about in this way stands the fraction that the same
steps give by schoolbook arithmetic, where nothing is reduced and a denominator may
be negative. Fractions are equal as numbers if they agree when multiplied crosswise.

Every step keeps the weight equal to its fraction. So the text of a weight is the
fraction in lowest terms with the sign in front, two texts are equal exactly if the
fractions are equal as numbers, and every text is read back.
-/

namespace MaxSat

open Text

/-- A numerator over a denominator as arithmetic leaves them. -/
structure Fraction where
  num : Int
  den : Int
  deriving DecidableEq, Repr

namespace Fraction

def neg (a : Fraction) : Fraction := ⟨-a.num, a.den⟩

def add (a b : Fraction) : Fraction := ⟨a.num * b.den + b.num * a.den, a.den * b.den⟩

def sub (a b : Fraction) : Fraction := ⟨a.num * b.den - b.num * a.den, a.den * b.den⟩

def sum (as : List Fraction) : Fraction := as.foldr add ⟨0, 1⟩

/-- Equal as numbers. -/
def Same (a b : Fraction) : Prop := a.num * b.den = b.num * a.den

def value (a : Fraction) : Weight := a.num / a.den

/-- The spelling of a fraction in lowest terms: an integer, or an integer, a bar and a natural
number above 1. -/
inductive LowestTerms (a : Fraction) : List Char → Prop
  | integral {p : Int} (same : a.Same ⟨p, 1⟩) : LowestTerms a (ofInteger p)
  | proper {p : Int} {q : Nat} (same : a.Same ⟨p, q⟩) (proper : 1 < q)
      (coprime : p.natAbs.Coprime q) : LowestTerms a (ofInteger p ++ '/' :: ofNatural q)

variable {a b : Fraction}

theorem value_eq_value_iff (left : a.den ≠ 0) (right : b.den ≠ 0) :
    a.value = b.value ↔ a.Same b := by
  have left : (a.den : Weight) ≠ 0 := Int.cast_ne_zero.mpr left
  have right : (b.den : Weight) ≠ 0 := Int.cast_ne_zero.mpr right
  rw [value, value, div_eq_div_iff left right, Same]
  exact_mod_cast Iff.rfl

theorem value_neg (a : Fraction) : a.neg.value = -a.value := by
  simp [value, neg, neg_div]

theorem value_add (left : a.den ≠ 0) (right : b.den ≠ 0) :
    (a.add b).value = a.value + b.value := by
  have left : (a.den : Weight) ≠ 0 := Int.cast_ne_zero.mpr left
  have right : (b.den : Weight) ≠ 0 := Int.cast_ne_zero.mpr right
  rw [value, value, value, div_add_div _ _ left right, add]
  push_cast
  rw [mul_comm (b.num : Weight)]

theorem value_sub (left : a.den ≠ 0) (right : b.den ≠ 0) :
    (a.sub b).value = a.value - b.value := by
  have left : (a.den : Weight) ≠ 0 := Int.cast_ne_zero.mpr left
  have right : (b.den : Weight) ≠ 0 := Int.cast_ne_zero.mpr right
  rw [value, value, value, div_sub_div _ _ left right, sub]
  push_cast
  rw [mul_comm (b.num : Weight)]

/-- Nothing is lost by adding up fractions instead of weights. -/
theorem value_sum {parts : List (Weight × Fraction)}
    (each : ∀ x ∈ parts, x.2.den ≠ 0 ∧ x.2.value = x.1) :
    (sum (parts.map Prod.snd)).den ≠ 0 ∧
      (sum (parts.map Prod.snd)).value = Weight.total (parts.map Prod.fst) := by
  induction parts with
  | nil => exact ⟨one_ne_zero, by simp [sum, value, Weight.total]⟩
  | cons x parts ih =>
    obtain ⟨nonzero, same⟩ := each x (by simp)
    obtain ⟨restNonzero, rest⟩ := ih fun y mem => each y (by simp [mem])
    refine ⟨mul_ne_zero nonzero restNonzero, ?_⟩
    have added := value_add nonzero restNonzero
    rw [same, rest] at added
    exact added

end Fraction

namespace Weight

/-- The fraction that a weight is by type. -/
def fraction (w : Weight) : Fraction := ⟨w.num, w.den⟩

theorem den_fraction_ne_zero (w : Weight) : w.fraction.den ≠ 0 :=
  Int.natCast_ne_zero.mpr w.den_nz

theorem value_fraction (w : Weight) : w.fraction.value = w := by
  rw [fraction, Fraction.value]
  exact_mod_cast Rat.num_div_den w

/-- The weights that come about, each with the fraction that the same steps give. -/
inductive Arises : Weight → Fraction → Prop
  | read {s : String} {w : Weight} {a : Fraction} (read : ofString s = .ok w)
      (spells : SpellsPadded s.toList a.value) (nonzero : a.den ≠ 0) : Arises w a
  | int (n : Int) : Arises n ⟨n, 1⟩
  | ratio {n d : Int} {w : Weight} (made : ofRatio? n d = some w) : Arises w ⟨n, d⟩
  | neg {w : Weight} {a : Fraction} (arg : Arises w a) : Arises (-w) a.neg
  | add {v w : Weight} {a b : Fraction} (left : Arises v a) (right : Arises w b) :
      Arises (v + w) (a.add b)
  | sub {v w : Weight} {a b : Fraction} (left : Arises v a) (right : Arises w b) :
      Arises (v - w) (a.sub b)
  | total {parts : List (Weight × Fraction)} (each : ∀ x ∈ parts, Arises x.1 x.2) :
      Arises (total (parts.map Prod.fst)) (.sum (parts.map Prod.snd))

/-- Every step keeps a weight equal to its fraction. -/
theorem Arises.value_eq {w : Weight} {a : Fraction} (arises : Arises w a) :
    a.den ≠ 0 ∧ a.value = w := by
  induction arises with
  | @read s w a read spells nonzero =>
    refine ⟨nonzero, ?_⟩
    have again := parse?_eq_some_iff.mpr spells
    rw [ofString, again] at read
    exact Except.ok.inj read
  | int n => exact ⟨one_ne_zero, by simp [Fraction.value]⟩
  | @ratio n d w made =>
    obtain ⟨nonzero, value⟩ := Option.ite_none_left_eq_some.mp made
    refine ⟨nonzero, ?_⟩
    rw [Fraction.value, ← Rat.divInt_eq_div]
    exact Option.some.inj value
  | neg arg ih => exact ⟨ih.1, by rw [Fraction.value_neg, ih.2]⟩
  | add left right ihl ihr =>
    exact ⟨mul_ne_zero ihl.1 ihr.1, by rw [Fraction.value_add ihl.1 ihr.1, ihl.2, ihr.2]⟩
  | sub left right ihl ihr =>
    exact ⟨mul_ne_zero ihl.1 ihr.1, by rw [Fraction.value_sub ihl.1 ihr.1, ihl.2, ihr.2]⟩
  | total each ih => exact Fraction.value_sum ih

/-- Every weight comes about. -/
theorem arises_fraction (w : Weight) : Arises w w.fraction := by
  have nonzero : (w.den : Int) ≠ 0 := w.den_fraction_ne_zero
  apply Arises.ratio
  rw [ofRatio?, if_neg nonzero, Rat.divInt_eq_div]
  exact congrArg some w.value_fraction

theorem Arises.same_iff {v w : Weight} {a b : Fraction} (left : Arises v a) (right : Arises w b) :
    v = w ↔ a.Same b := by
  obtain ⟨nonzeroLeft, rfl⟩ := left.value_eq
  obtain ⟨nonzeroRight, rfl⟩ := right.value_eq
  exact Fraction.value_eq_value_iff nonzeroLeft nonzeroRight

theorem ofString_text (w : Weight) : ofString w.text = .ok w := by
  rw [ofString, text, String.toList_ofList, parse?_render]

theorem text_inj {v w : Weight} : v.text = w.text ↔ v = w := by
  refine ⟨fun same => ?_, fun same => same ▸ rfl⟩
  have read := ofString_text v
  rw [same, ofString_text] at read
  exact (Except.ok.inj read).symm

theorem Arises.lowestTerms {w : Weight} {a : Fraction} (arises : Arises w a) :
    a.LowestTerms w.text.toList := by
  have same : a.Same w.fraction := (arises.same_iff w.arises_fraction).mp rfl
  rw [text, String.toList_ofList, render]
  by_cases whole : w.den = 1
  · rw [if_pos whole]
    rw [fraction, whole] at same
    exact .integral same
  · rw [if_neg whole]
    have positive : 0 < w.den := w.den_pos
    exact .proper same (by omega) w.reduced

/-- Whatever steps made two weights, each is read back from its text, which is its fraction in
lowest terms, and their texts are equal exactly if they are equal as numbers. -/
theorem text_is_canonical {v w : Weight} {a b : Fraction} (left : Arises v a)
    (right : Arises w b) :
    ofString v.text = .ok v ∧ a.LowestTerms v.text.toList ∧ (v.text = w.text ↔ a.Same b) ∧
      (v = w ↔ a.Same b) := by
  have same := left.same_iff right
  exact ⟨ofString_text v, left.lowestTerms, text_inj.trans same, same⟩

/-- Two ways to one half: three decimals summed up, and a fraction with a negative denominator
negated. -/
theorem text_is_canonical_half :
    let a := Fraction.sum [⟨1, 10⟩, ⟨-1, -10⟩, ⟨30, 100⟩]
    let b := Fraction.neg ⟨2, -4⟩
    let v := total [1 / 10, 1 / 10, 3 / 10]
    Arises v a ∧ Arises (1 / 2) b ∧ a ≠ b ∧ v.text = "1/2" ∧ ofString v.text = .ok v ∧
      (v.text = text (1 / 2) ↔ a.Same b) := by
  intro a b v
  have tenth : Arises (1 / 10) ⟨1, 10⟩ :=
    .read (s := " +.1e0") (by decide +kernel)
      (parse?_eq_some_iff.mp (by decide +kernel)) (by decide)
  have ratio : Arises (1 / 10) ⟨-1, -10⟩ := .ratio (by decide +kernel)
  have decimal : Arises (3 / 10) ⟨30, 100⟩ :=
    .read (s := "0.30") (by decide +kernel)
      (parse?_eq_some_iff.mp (by decide +kernel)) (by decide)
  have left : Arises v a := by
    apply @Arises.total [(1 / 10, ⟨1, 10⟩), (1 / 10, ⟨-1, -10⟩), (3 / 10, ⟨30, 100⟩)]
    simp only [List.forall_mem_cons]
    exact ⟨tenth, ratio, decimal, by simp⟩
  have right : Arises (1 / 2) b := by
    have arg : Arises (-1 / 2) ⟨2, -4⟩ := .ratio (by decide +kernel)
    have turned : (1 / 2 : Weight) = -(-1 / 2) := by norm_num
    rw [turned]
    exact arg.neg
  have canonical := text_is_canonical left right
  exact ⟨left, right, by decide, by decide +kernel, canonical.1, canonical.2.2.1⟩

end Weight

end MaxSat

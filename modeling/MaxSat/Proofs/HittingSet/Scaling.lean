import Mathlib.Algebra.BigOperators.Ring.List
import MaxSat.HittingSet.Hitter
import MaxSat.Proofs.Basic

/-!
# Hitting sets of scaled weights

Weights enter the search in comparisons alone: of two members, of two sets, and
of a bound with a set. Bounds and costs are sums of weights. So a positive factor
on all weights goes through every sum and drops out of every comparison, and the
search visits the same nodes, in the same order, also where weights are negative
or equal.

A hitter that records scaled cores is therefore the scaled hitter at every time,
and gives the same answers.
-/

namespace MaxSat

namespace HittingSet

/-- The same set at `q` times the cost. -/
def Best.scale (q : Weight) (best : Best) : Best := { best with cost := q * best.cost }

section Search

variable {q : Weight} (positive : 0 < q) (weight : Nat → Weight)
include positive

theorem cheapest?_scale (vs : List Nat) :
    cheapest? (fun v => q * weight v) vs = cheapest? weight vs := by
  have same : minOn (fun v => q * weight v) = minOn weight := by
    funext a b
    simp only [minOn, mul_le_mul_iff_right₀ positive]
  simp only [cheapest?, List.minOn?, same]

theorem greedy_scale (cores : List (List Nat)) (set : List Nat) :
    greedy (fun v => q * weight v) cores set = greedy weight cores set := by
  induction cores generalizing set with
  | nil => rfl
  | cons core cores ih =>
    rw [greedy, greedy, cheapest?_scale positive]
    split
    · exact ih set
    · cases cheapest? weight core with
      | none => exact ih set
      | some v => exact ih (v :: set)

theorem boundFrom_scale (m : Marks) (used : List Nat) (cores : List (List Nat)) :
    boundFrom (fun v => q * weight v) m used cores = q * boundFrom weight m used cores := by
  induction cores generalizing used with
  | nil => exact (mul_zero q).symm
  | cons core cores ih =>
    rw [boundFrom, boundFrom, cheapest?_scale positive]
    split
    · exact ih used
    · dsimp only
      rw [ih (core ++ used), mul_add]
      cases cheapest? weight (m.openIn core) with
      | none => rw [mul_zero]
      | some v => rfl

omit positive in
theorem siblings_scale {child child' : Marks → Weight → Best → Best}
    (scaled : ∀ m cost best, child' m (q * cost) (best.scale q) = (child m cost best).scale q)
    (cost : Weight) (vs : List Nat) (m : Marks) (best : Best) :
    siblings child' (fun v => q * weight v) (q * cost) vs m (best.scale q) =
      (siblings child weight cost vs m best).scale q := by
  induction vs generalizing m best with
  | nil => rfl
  | cons v vs ih =>
    rw [siblings, siblings, ← mul_add, scaled]
    exact ih (m.forbid v) (child (m.choose v) (cost + weight v) best)

theorem explore_scale (depth : Nat) (m : Marks) (cost : Weight) (best : Best) :
    explore (fun v => q * weight v) depth m (q * cost) (best.scale q) =
      (explore weight depth m cost best).scale q := by
  have le (a b : Weight) : q * a ≤ q * b ↔ a ≤ b := mul_le_mul_iff_right₀ positive
  have lt (a b : Weight) : q * a < q * b ↔ a < b := mul_lt_mul_iff_right₀ positive
  induction depth generalizing m cost best with
  | zero => rfl
  | succ depth ih =>
    rw [explore, explore]
    cases m.node with
    | dead => rfl
    | covered =>
      simp only [Best.scale, lt]
      split <;> rfl
    | branch candidates =>
      have bound : q * best.cost ≤ q * cost + lowerBound (fun v => q * weight v) m ↔
          best.cost ≤ cost + lowerBound weight m := by
        rw [lowerBound, lowerBound, boundFrom_scale positive, ← mul_add, le]
      -- The cut is the same, the candidates come in the same order.
      simp only [Best.scale, bound, le]
      split
      · rfl
      · exact siblings_scale weight ih cost _ m best

/-- A common positive factor of the weights does not change which set is found. -/
theorem minimum_scale (cores : List (List Nat)) :
    minimum (fun v => q * weight v) cores = minimum weight cores := by
  have found := explore_scale positive weight (cores.length + 1) { unhit := cores } 0
    ⟨greedy weight cores [], Weight.total ((greedy weight cores []).map weight)⟩
  rw [mul_zero, Best.scale, Weight.total_eq_sum, ← List.sum_map_mul_left] at found
  rw [minimum, minimum, greedy_scale positive]
  exact congrArg (fun best => best.set.mergeSort fun a b => a ≤ b) found

end Search

end HittingSet

/-- The member with `q` times its weight. -/
def scaleMember (q : Weight) (m : Nat × Weight) : Nat × Weight := (m.1, q * m.2)

theorem scaleMember_fst (q : Weight) (m : Nat × Weight) : (scaleMember q m).1 = m.1 := rfl

theorem lookup_scale (q : Weight) (ms : List (Nat × Weight)) (v : Nat) :
    (ms.map (scaleMember q)).lookup v = (ms.lookup v).map (q * ·) := by
  induction ms with
  | nil => rfl
  | cons m ms ih =>
    rw [List.map_cons, scaleMember, List.lookup_cons, List.lookup_cons]
    cases v == m.1 with
    | true => rfl
    | false => exact ih

namespace Core

def scale (q : Weight) (c : Core) : Core := ⟨c.members.map (scaleMember q)⟩

theorem vars_scale (q : Weight) (c : Core) : (c.scale q).vars = c.vars := by
  rw [vars, vars, scale, List.map_map]
  rfl

theorem dropRepeats_scale (q : Weight) (ms : List (Nat × Weight)) :
    dropRepeats (ms.map (scaleMember q)) = (dropRepeats ms).map (scaleMember q) := by
  induction ms with
  | nil => rfl
  | cons m ms ih =>
    rw [List.map_cons, dropRepeats, dropRepeats, ih, List.dropWhile_map, List.map_cons]
    rfl

theorem ofMembers_scale (q : Weight) (ms : List (Nat × Weight)) :
    ofMembers (ms.map (scaleMember q)) = (ofMembers ms).scale q := by
  rw [ofMembers, ofMembers, scale, ← dropRepeats_scale]
  have sorted : (ms.mergeSort fun a b => a.1 ≤ b.1).map (scaleMember q) =
      (ms.map (scaleMember q)).mergeSort fun a b => a.1 ≤ b.1 :=
    List.map_mergeSort fun _ _ _ _ => rfl
  rw [sorted]

end Core

namespace Hitter

/-- The hitter that has recorded the same cores at `q` times their weights. -/
def scale (q : Weight) (h : Hitter) : Hitter :=
  { h with weights := h.weights.map (scaleMember q) }

theorem weight_scale (q : Weight) (h : Hitter) : (h.scale q).weight = fun v => q * h.weight v := by
  funext v
  rw [weight, weight, weight?, weight?, scale, lookup_scale]
  cases h.weights.lookup v with
  | none => exact (mul_zero q).symm
  | some w => rfl

theorem mention_scale (q : Weight) (ws : List (Nat × Weight)) (m : Nat × Weight) :
    mention (ws.map (scaleMember q)) (scaleMember q m) = (mention ws m).map (scaleMember q) := by
  rw [mention, mention, lookup_scale, Option.isSome_map, scaleMember_fst]
  split
  · rfl
  · rw [List.map_append, List.map_singleton]

theorem hit_scale (q : Weight) (h : Hitter) (c : Core) :
    (h.scale q).hit (c.scale q) = (h.hit c).scale q := by
  have mentioned : (c.members.map (scaleMember q)).foldl mention (h.weights.map (scaleMember q)) =
      (c.members.foldl mention h.weights).map (scaleMember q) := by
    rw [List.foldl_map]
    exact List.foldl_hom (List.map (scaleMember q)) (mention_scale q)
  rw [hit, hit, Core.vars_scale, Core.scale, List.isEmpty_map]
  split
  · rfl
  · simp only [scale, mentioned]

theorem ask_scale {q : Weight} (positive : 0 < q) (h : Hitter) :
    (h.scale q).ask = (h.ask.1, h.ask.2.scale q) := by
  have last : (h.scale q).last = h.last := rfl
  rw [ask, ask, last]
  cases h.last with
  | some set => rfl
  | none =>
    dsimp only
    rw [weight_scale, HittingSet.minimum_scale positive]
    rfl

end Hitter

end MaxSat

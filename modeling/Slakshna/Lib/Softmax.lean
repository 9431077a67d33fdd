import Mathlib.Algebra.Order.BigOperators.Group.List
import Mathlib.Analysis.SpecialFunctions.Exp

/-! Softmax over a list of scores, for any exponential function that is positive. The bounds on the
difference of two weights are for the real one. -/
namespace Slakshna.Softmax
variable {K : Type*} [Field K]

def denominator (exp : K → K) (xs : List K) : K := (xs.map exp).sum

def softmax (exp : K → K) (xs : List K) : List K := xs.map (fun x => exp x / denominator exp xs)

section Order
variable [LinearOrder K] [IsStrictOrderedRing K] {exp : K → K} (hexp : ∀ x, 0 < exp x)
include hexp

theorem exp_le_denominator {xs : List K} {x : K} (hx : x ∈ xs) : exp x ≤ denominator exp xs := by
  apply List.single_le_sum
  · intro y hy
    obtain ⟨z, _, rfl⟩ := List.mem_map.1 hy
    exact (hexp z).le
  · exact List.mem_map_of_mem hx

theorem denominator_pos {xs : List K} {x : K} (hx : x ∈ xs) : 0 < denominator exp xs :=
  (hexp x).trans_le (exp_le_denominator hexp hx)

theorem weight_bounds {xs : List K} {x : K} (hx : x ∈ xs) :
    0 ≤ exp x / denominator exp xs ∧ exp x / denominator exp xs ≤ 1 := by
  have hpos := denominator_pos hexp hx
  exact ⟨div_nonneg (hexp x).le hpos.le, (div_le_one hpos).2 (exp_le_denominator hexp hx)⟩

theorem sum_weights {xs : List K} (hne : xs ≠ []) :
    (xs.map (fun x => exp x / denominator exp xs)).sum = 1 := by
  obtain ⟨x, hx⟩ := List.exists_mem_of_ne_nil xs hne
  have hpos := denominator_pos hexp hx
  have hsum : (xs.map (fun x => exp x / denominator exp xs)).sum =
      denominator exp xs * (denominator exp xs)⁻¹ := by
    simp only [div_eq_mul_inv]
    exact List.sum_map_mul_right xs exp _
  rw [hsum, mul_inv_cancel₀ hpos.ne']

theorem exp_add_exp_le {ι : Type*} [DecidableEq ι] {ids : List ι} (score : ι → K) {a b : ι}
    (ha : a ∈ ids) (hb : b ∈ ids) (hab : a ≠ b) :
    exp (score a) + exp (score b) ≤ denominator exp (ids.map score) := by
  have hperm : ids.Perm (a :: ids.erase a) := List.perm_cons_erase ha
  have hmem : b ∈ ids.erase a := (List.mem_erase_of_ne (Ne.symm hab)).2 hb
  have hsum : denominator exp (ids.map score) =
      exp (score a) + denominator exp ((ids.erase a).map score) := by
    rw [denominator, ((hperm.map score).map exp).sum_eq]
    simp [denominator]
  rw [hsum]
  exact add_le_add_right (exp_le_denominator hexp (List.mem_map_of_mem hmem)) _

end Order

theorem exp_sub_le (x y : ℝ) : Real.exp x - Real.exp y ≤ Real.exp x * (x - y) := by
  have hadd : Real.exp x * Real.exp (y - x) = Real.exp y := by
    rw [← Real.exp_add, add_sub_cancel]
  have hone : y - x + 1 ≤ Real.exp (y - x) := Real.add_one_le_exp _
  nlinarith [Real.exp_pos x]

theorem weight_sub_le {d x y : ℝ} (hd : Real.exp x ≤ d) (hxy : y ≤ x) :
    Real.exp x / d - Real.exp y / d ≤ x - y := by
  have hpos : 0 < d := (Real.exp_pos x).trans_le hd
  rw [← sub_div, div_le_iff₀ hpos]
  calc
    Real.exp x - Real.exp y ≤ Real.exp x * (x - y) := exp_sub_le x y
    _ ≤ d * (x - y) := mul_le_mul_of_nonneg_right hd (sub_nonneg.2 hxy)
    _ = (x - y) * d := mul_comm _ _

end Slakshna.Softmax

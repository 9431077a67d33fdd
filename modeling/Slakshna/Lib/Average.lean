import Mathlib.Algebra.BigOperators.Ring.List
import Mathlib.Algebra.Order.BigOperators.Group.List
import Mathlib.Algebra.Order.Field.Basic
import Mathlib.Tactic.Linarith

/-! Averages over a list with positive weights of sum one: they lie between the values, and weights
of a part only sum up to less than one. -/
namespace Slakshna.Average
variable {ι K : Type*} [Field K]

def weighted (w x : ι → K) (l : List ι) : K := (l.map (fun j => w j * x j)).sum

theorem weighted_cons (w x : ι → K) (j : ι) (l : List ι) :
    weighted w x (j :: l) = w j * x j + weighted w x l := List.sum_cons

theorem weighted_const (w : ι → K) (c : K) (l : List ι) :
    weighted w (fun _ => c) l = (l.map w).sum * c := List.sum_map_mul_right l w c

theorem weighted_congr (w : ι → K) {x y : ι → K} {l : List ι} (h : ∀ j ∈ l, x j = y j) :
    weighted w x l = weighted w y l := by
  rw [weighted, weighted]
  congr 1
  exact List.map_congr_left (fun j hj => congrArg (w j * ·) (h j hj))

theorem weighted_mul_right (w x : ι → K) (c : K) (l : List ι) :
    weighted w (fun j => x j * c) l = weighted w x l * c := by
  simp only [weighted, ← mul_assoc]
  exact List.sum_map_mul_right l _ c

section Order
variable [LinearOrder K] [IsStrictOrderedRing K] {w x : ι → K} {l : List ι}

theorem weighted_lt {y : ι → K} (hw : ∀ j ∈ l, 0 < w j) (hle : ∀ j ∈ l, x j ≤ y j)
    (hlt : ∃ j ∈ l, x j < y j) : weighted w x l < weighted w y l := by
  obtain ⟨j, hj, hxy⟩ := hlt
  exact List.sum_lt_sum _ _ (fun i hi => mul_le_mul_of_nonneg_left (hle i hi) (hw i hi).le)
    ⟨j, hj, mul_lt_mul_of_pos_left hxy (hw j hj)⟩

theorem exists_mem_of_sum (hsum : (l.map w).sum = 1) : ∃ j, j ∈ l := by
  cases l with
  | nil => exact absurd hsum (by simp)
  | cons j l => exact ⟨j, List.mem_cons_self⟩

theorem exists_le_weighted (hw : ∀ j ∈ l, 0 < w j) (hsum : (l.map w).sum = 1) :
    ∃ j ∈ l, x j ≤ weighted w x l := by
  obtain ⟨i, hi⟩ := exists_mem_of_sum hsum
  by_contra hnone
  have habove : ∀ j ∈ l, weighted w x l < x j :=
    fun j hj => lt_of_not_ge (fun hle => hnone ⟨j, hj, hle⟩)
  have hlt := weighted_lt hw (fun j hj => (habove j hj).le) ⟨i, hi, habove i hi⟩
  rw [weighted_const, hsum, one_mul] at hlt
  exact lt_irrefl _ hlt

theorem exists_weighted_le (hw : ∀ j ∈ l, 0 < w j) (hsum : (l.map w).sum = 1) :
    ∃ j ∈ l, weighted w x l ≤ x j := by
  obtain ⟨i, hi⟩ := exists_mem_of_sum hsum
  by_contra hnone
  have hbelow : ∀ j ∈ l, x j < weighted w x l :=
    fun j hj => lt_of_not_ge (fun hle => hnone ⟨j, hj, hle⟩)
  have hlt := weighted_lt hw (fun j hj => (hbelow j hj).le) ⟨i, hi, hbelow i hi⟩
  rw [weighted_const, hsum, one_mul] at hlt
  exact lt_irrefl _ hlt

theorem abs_weighted_le {c : K} (hw : ∀ j ∈ l, 0 < w j) (hx : ∀ j ∈ l, |x j| ≤ c) :
    |weighted w x l| ≤ (l.map w).sum * c := by
  induction l with
  | nil => simp [weighted]
  | cons j l ih =>
    obtain ⟨hwj, hw⟩ := List.forall_mem_cons.1 hw
    obtain ⟨hxj, hx⟩ := List.forall_mem_cons.1 hx
    rw [weighted_cons, List.map_cons, List.sum_cons, add_mul]
    refine (abs_add_le _ _).trans (add_le_add ?_ (ih hw hx))
    rw [abs_mul, abs_of_pos hwj]
    exact mul_le_mul_of_nonneg_left hxj hwj.le

theorem weighted_part_lt {P : ι → Prop} [DecidablePred P] (hw : ∀ j ∈ l, 0 < w j)
    (hsum : (l.map w).sum = 1) (h : ∃ j ∈ l, ¬P j) :
    weighted w (fun j => if P j then 1 else 0) l < 1 := by
  obtain ⟨j, hj, hP⟩ := h
  have hlt : weighted w (fun j => if P j then 1 else 0) l < weighted w (fun _ => 1) l := by
    apply weighted_lt hw
    · intro i _
      split
      · exact le_refl 1
      · exact zero_le_one
    · refine ⟨j, hj, ?_⟩
      rw [if_neg hP]
      exact one_pos
  rwa [weighted_const, hsum, one_mul] at hlt

theorem weighted_part_eq_one_iff {P : ι → Prop} [DecidablePred P] (hw : ∀ j ∈ l, 0 < w j)
    (hsum : (l.map w).sum = 1) :
    weighted w (fun j => if P j then 1 else 0) l = 1 ↔ ∀ j ∈ l, P j := by
  constructor
  · intro h
    by_contra hmissing
    obtain ⟨j, hj, hP⟩ := not_forall₂.1 hmissing
    exact (weighted_part_lt hw hsum ⟨j, hj, hP⟩).ne h
  · intro h
    rw [weighted_congr w (fun j hj => if_pos (h j hj)), weighted_const, hsum, one_mul]

end Order

end Slakshna.Average

import Mathlib.Algebra.Order.BigOperators.Ring.Finset
import Slakshna.Lib.Nearest

/-! Points in the cells between increasing edges, and the mean of a cell under a weight. -/
namespace Slakshna.Cells
open Nearest

section Order
variable {K : Type*} [LinearOrder K]

def Interlaced : List K → List K → Prop
  | [_], [] => True
  | a :: b :: edges, c :: points => (a < c ∧ c < b) ∧ Interlaced (b :: edges) points
  | _, _ => False

def refit (f : K → K → K → K) : List K → List K → List K
  | a :: b :: edges, c :: points => f a b c :: refit f (b :: edges) points
  | _, _ => []

theorem length_refit {f : K → K → K → K} {edges points : List K} (h : Interlaced edges points) :
    (refit f edges points).length = points.length := by
  fun_induction Interlaced edges points with
  | case1 a => rfl
  | case2 a b edges c points ih => simp [refit, ih h.2]
  | case3 => exact h.elim

theorem Interlaced.refit {f : K → K → K → K} {edges points : List K}
    (h : Interlaced edges points) (hf : ∀ a b c, a < c → c < b → a < f a b c ∧ f a b c < b) :
    Interlaced edges (refit f edges points) := by
  fun_induction Interlaced edges points with
  | case1 a => trivial
  | case2 a b edges c points ih => exact ⟨hf a b c h.1.1 h.1.2, ih h.2⟩
  | case3 => exact h.elim

theorem Interlaced.lt {a : K} {edges points : List K} (h : Interlaced (a :: edges) points) :
    ∀ c ∈ points, a < c := by
  induction points generalizing a edges with
  | nil => simp
  | cons c points ih =>
    cases edges with
    | nil => exact h.elim
    | cons b edges =>
      obtain ⟨⟨hac, hcb⟩, hrest⟩ := h
      rw [List.forall_mem_cons]
      exact ⟨hac, fun d hd => (hac.trans hcb).trans (ih hrest d hd)⟩

theorem Interlaced.head_lt {a z : K} {edges points : List K}
    (h : Interlaced (a :: (edges ++ [z])) points) : a < z := by
  induction edges generalizing a points with
  | nil =>
    cases points with
    | nil => exact h.elim
    | cons c points => exact h.1.1.trans h.1.2
  | cons b edges ih =>
    cases points with
    | nil => exact h.elim
    | cons c points =>
      obtain ⟨⟨hac, hcb⟩, hrest⟩ := h
      exact (hac.trans hcb).trans (ih hrest)

theorem Interlaced.lt_last {a z : K} {edges points : List K}
    (h : Interlaced (a :: (edges ++ [z])) points) : ∀ c ∈ points, c < z := by
  induction edges generalizing a points with
  | nil =>
    match points, h with
    | [c], h => simpa using h.1.2
  | cons b edges ih =>
    cases points with
    | nil => exact h.elim
    | cons c points =>
      obtain ⟨⟨-, hcb⟩, hrest⟩ := h
      exact List.forall_mem_cons.2 ⟨hcb.trans hrest.head_lt, ih hrest⟩

theorem Interlaced.increasing {edges points : List K} (h : Interlaced edges points) :
    points.Pairwise (· < ·) := by
  fun_induction Interlaced edges points with
  | case1 a => exact List.Pairwise.nil
  | case2 a b edges c points ih =>
    obtain ⟨⟨-, hcb⟩, hrest⟩ := h
    exact List.pairwise_cons.2 ⟨fun d hd => hcb.trans (hrest.lt d hd), ih hrest⟩
  | case3 => exact h.elim

end Order

section Field
variable {K : Type*} [Field K] [LinearOrder K] [IsStrictOrderedRing K]

theorem interlaced_midpoints {a z : K} {points : List K} (hne : points ≠ [])
    (hincreasing : points.Pairwise (· < ·)) (hinside : ∀ c ∈ points, a < c ∧ c < z) :
    Interlaced (a :: (midpoints points ++ [z])) points := by
  induction points generalizing a with
  | nil => exact absurd rfl hne
  | cons c points ih =>
    obtain ⟨hc, hpoints⟩ := List.pairwise_cons.1 hincreasing
    obtain ⟨hac, hcz⟩ := hinside c List.mem_cons_self
    cases points with
    | nil => exact ⟨⟨hac, hcz⟩, trivial⟩
    | cons d rest =>
      have hcd : c < d := hc d List.mem_cons_self
      have hmid : c < (c + d) / 2 ∧ (c + d) / 2 < d := by
        constructor
        · linarith
        · linarith
      refine ⟨⟨hac, hmid.1⟩, ih (List.cons_ne_nil d rest) hpoints ?_⟩
      intro e he
      have hde : d ≤ e := by
        cases List.mem_cons.1 he with
        | inl heq => exact heq.ge
        | inr he => exact ((List.pairwise_cons.1 hpoints).1 e he).le
      exact ⟨hmid.2.trans_le hde, (hinside e (List.mem_cons_of_mem c he)).2⟩

theorem midpoints_separate {points : List K} (hincreasing : points.Pairwise (· < ·)) {i : ℕ}
    {c d : K} (hc : points[i]? = some c) (hd : points[i + 1]? = some d) :
    ∃ b, (midpoints points)[i]? = some b ∧ c < b ∧ b < d := by
  induction points generalizing i with
  | nil => cases hc
  | cons e points ih =>
    obtain ⟨he, hpoints⟩ := List.pairwise_cons.1 hincreasing
    cases points with
    | nil => cases hd
    | cons e' rest =>
      cases i with
      | zero =>
        cases hc
        cases hd
        have hlt : c < d := he d List.mem_cons_self
        refine ⟨(c + d) / 2, rfl, ?_, ?_⟩
        · linarith
        · linarith
      | succ i => exact ih hpoints hc hd

theorem mean_inside {ι : Type*} {s : Finset ι} {w x : ι → K} {a b : K}
    (hw : ∀ i ∈ s, 0 ≤ w i) (hx : ∀ i ∈ s, a < x i ∧ x i < b) (hpos : 0 < ∑ i ∈ s, w i) :
    a * ∑ i ∈ s, w i < ∑ i ∈ s, x i * w i ∧ ∑ i ∈ s, x i * w i < b * ∑ i ∈ s, w i := by
  obtain ⟨j, hj, hwj⟩ : ∃ j ∈ s, 0 < w j := by
    by_contra hnone
    push Not at hnone
    exact absurd hpos (not_lt.2 (Finset.sum_nonpos hnone))
  rw [Finset.mul_sum, Finset.mul_sum]
  constructor
  · apply Finset.sum_lt_sum
    · intro i hi
      exact mul_le_mul_of_nonneg_right (hx i hi).1.le (hw i hi)
    · exact ⟨j, hj, mul_lt_mul_of_pos_right (hx j hj).1 hwj⟩
  · apply Finset.sum_lt_sum
    · intro i hi
      exact mul_le_mul_of_nonneg_right (hx i hi).2.le (hw i hi)
    · exact ⟨j, hj, mul_lt_mul_of_pos_right (hx j hj).2 hwj⟩

end Field

end Slakshna.Cells

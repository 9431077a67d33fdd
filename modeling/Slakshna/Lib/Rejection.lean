import Mathlib.Algebra.Order.BigOperators.Ring.Finset
import Mathlib.Algebra.Order.Field.Basic
import Mathlib.Order.Interval.Set.Defs
import Mathlib.Tactic.Linarith
import Mathlib.Tactic.Ring

/-! Draws from a finite set by weight, and the acceptance rule of rejection sampling: which draws
can be accepted, which can be rejected, and what can be drawn in place of a rejected one. -/
namespace Slakshna.Rejection
variable {V K : Type*}

/-- A way to draw: whatever has weights gives something of positive weight. -/
structure Multinomial (V K : Type*) [Zero K] [LT K] where
  draw : (V → K) → V
  draw_pos : ∀ w : V → K, (∃ v, 0 < w v) → 0 < w (draw w)

theorem exists_draw [Zero K] [LT K] {w : V → K} {v : V} (hv : 0 < w v) :
    ∃ m : Multinomial V K, m.draw w = v := by
  classical
  refine ⟨⟨fun w' => if w' = w then v else if h : ∃ u, 0 < w' u then h.choose else v, ?_⟩, if_pos rfl⟩
  intro w' h
  by_cases hw : w' = w
  · rw [if_pos hw, hw]
    exact hv
  · rw [if_neg hw, dif_pos h]
    exact h.choose_spec

variable [Field K] [LinearOrder K]

abbrev Uniform (K : Type*) [Field K] [LinearOrder K] := Set.Ico (0 : K) 1

def acceptProb (floor p q : K) : K := min (max p 0 / max q floor) 1

def corrected (p q : V → K) (v : V) : K := max (p v - q v) 0

structure Distribution [Fintype V] (p : V → K) : Prop where
  nonneg : ∀ v, 0 ≤ p v
  sum_eq_one : ∑ v, p v = 1

theorem Distribution.eq_one [Fintype V] {p : V → K} (hp : Distribution p) {g : V}
    (hg : ∀ v, 0 < p v → v = g) :
    p g = 1 := by
  rw [← hp.sum_eq_one]
  refine (Finset.sum_eq_single g ?_ ?_).symm
  · intro v _ hne
    by_contra hzero
    exact hne (hg v (lt_of_le_of_ne (hp.nonneg v) (Ne.symm hzero)))
  · intro hmem
    exact absurd (Finset.mem_univ g) hmem

variable [IsStrictOrderedRing K]

theorem corrected_pos {p q : V → K} {v : V} : 0 < corrected p q v ↔ q v < p v := by
  rw [corrected, lt_max_iff, sub_pos]
  simp

theorem acceptProb_nonneg {floor : K} (hfloor : 0 < floor) (p q : K) : 0 ≤ acceptProb floor p q :=
  le_min (div_nonneg (le_max_right _ _) (le_max_of_le_right hfloor.le)) zero_le_one

omit [IsStrictOrderedRing K] in
theorem acceptProb_le_one (floor p q : K) : acceptProb floor p q ≤ 1 := min_le_right _ _

theorem acceptProb_pos {floor p q : K} (hfloor : 0 < floor) : 0 < acceptProb floor p q ↔ 0 < p := by
  have hmax : 0 < max q floor := lt_max_of_lt_right hfloor
  rw [acceptProb, lt_min_iff, div_pos_iff_of_pos_right hmax, lt_max_iff]
  simp

theorem acceptProb_lt_one {floor p q : K} (hfloor : 0 < floor) (hp : 0 ≤ p) :
    acceptProb floor p q < 1 ↔ p < max q floor := by
  have hmax : 0 < max q floor := lt_max_of_lt_right hfloor
  rw [acceptProb, min_lt_iff, div_lt_one hmax, max_eq_left hp]
  simp

section Finite
variable [Fintype V] {p q : V → K}

theorem Distribution.le_one (hp : Distribution p) (v : V) : p v ≤ 1 := by
  rw [← hp.sum_eq_one]
  exact Finset.single_le_sum (fun u _ => hp.nonneg u) (Finset.mem_univ v)

theorem Distribution.exists_pos (hp : Distribution p) : ∃ v, 0 < p v := by
  by_contra hnone
  push Not at hnone
  have hsum : ∑ v, p v ≤ 0 := Finset.sum_nonpos (fun v _ => hnone v)
  rw [hp.sum_eq_one] at hsum
  exact absurd hsum (not_le.2 one_pos)

theorem exists_lt_of_lt (hp : Distribution p) (hq : Distribution q) {v : V} (hv : q v < p v) :
    ∃ d, p d < q d := by
  by_contra hnone
  push Not at hnone
  have hsum : ∑ u, q u < ∑ u, p u :=
    Finset.sum_lt_sum (fun u _ => hnone u) ⟨v, Finset.mem_univ v, hv⟩
  rw [hp.sum_eq_one, hq.sum_eq_one] at hsum
  exact lt_irrefl _ hsum

theorem exists_lt_iff_ne (hp : Distribution p) (hq : Distribution q) :
    (∃ v, q v < p v) ↔ p ≠ q := by
  constructor
  · intro h hsame
    obtain ⟨v, hv⟩ := h
    rw [hsame] at hv
    exact lt_irrefl _ hv
  · intro hne
    by_contra hnone
    push Not at hnone
    have hsum : ∑ v, p v = ∑ v, q v := hp.sum_eq_one.trans hq.sum_eq_one.symm
    have hall := (Finset.sum_eq_sum_iff_of_le (fun v _ => hnone v)).1 hsum
    exact hne (funext (fun v => hall v (Finset.mem_univ v)))

theorem Distribution.pos_eq (hp : Distribution p) {g v : V} (hg : 1 ≤ p g) (hv : 0 < p v) :
    v = g := by
  by_contra hne
  have hpair : p g + p v ≤ ∑ u, p u :=
    Finset.add_le_sum (fun u _ => hp.nonneg u) (Finset.mem_univ g) (Finset.mem_univ v) (Ne.symm hne)
  rw [hp.sum_eq_one] at hpair
  linarith

omit [Fintype V] in
theorem corrected_eq (p q : V → K) (v : V) : corrected p q v = p v - min (p v) (q v) := by
  cases le_total (p v) (q v) with
  | inl h => rw [corrected, max_eq_right (sub_nonpos.2 h), min_eq_left h, sub_self]
  | inr h => rw [corrected, max_eq_left (sub_nonneg.2 h), min_eq_right h]

omit [Fintype V] in
theorem mul_acceptProb {floor p q : K} (hfloor : 0 < floor) (hp : 0 ≤ p) (hq : q = 0 ∨ floor ≤ q) :
    q * acceptProb floor p q = min p q := by
  cases hq with
  | inl hzero => rw [hzero, zero_mul, min_eq_right hp]
  | inr hle =>
    have hpos : 0 < q := hfloor.trans_le hle
    rw [acceptProb, max_eq_left hp, max_eq_left hle, mul_min_of_nonneg _ _ hpos.le, mul_one,
      mul_div_cancel₀ _ hpos.ne']

theorem sum_rejected (hp : Distribution p) (hq : Distribution q) :
    ∑ d, (q d - min (p d) (q d)) = ∑ d, corrected p q d := by
  simp only [corrected_eq, Finset.sum_sub_distrib, hp.sum_eq_one, hq.sum_eq_one]

theorem sum_mul_corrected (p q : V → K) (v : V) :
    (∑ d, corrected p q d) * (corrected p q v / ∑ d, corrected p q d) = corrected p q v := by
  have hnonneg : ∀ d, 0 ≤ corrected p q d := fun d => le_max_right _ _
  by_cases hzero : ∑ d, corrected p q d = 0
  · have hv := (Finset.sum_eq_zero_iff_of_nonneg (fun d _ => hnonneg d)).1 hzero v (Finset.mem_univ v)
    rw [hzero, hv, zero_mul]
  · exact mul_div_cancel₀ _ hzero

theorem round_eq_target [DecidableEq V] {floor : K} (hfloor : 0 < floor) (hp : Distribution p)
    (hq : Distribution q) (hproposed : ∀ v, q v = 0 ∨ floor ≤ q v) (v : V) :
    ∑ d, q d * (acceptProb floor (p d) (q d) * (if d = v then 1 else 0) +
      (1 - acceptProb floor (p d) (q d)) * (corrected p q v / ∑ u, corrected p q u)) = p v := by
  have hmul : ∀ d, q d * acceptProb floor (p d) (q d) = min (p d) (q d) :=
    fun d => mul_acceptProb hfloor (hp.nonneg d) (hproposed d)
  calc ∑ d, q d * (acceptProb floor (p d) (q d) * (if d = v then 1 else 0) +
        (1 - acceptProb floor (p d) (q d)) * (corrected p q v / ∑ u, corrected p q u))
      = ∑ d, (min (p d) (q d) * (if d = v then 1 else 0) +
          (q d - min (p d) (q d)) * (corrected p q v / ∑ u, corrected p q u)) := by
        apply Finset.sum_congr rfl
        intro d _
        rw [← hmul]
        ring
    _ = min (p v) (q v) + (∑ d, corrected p q d) * (corrected p q v / ∑ u, corrected p q u) := by
        rw [Finset.sum_add_distrib, ← Finset.sum_mul, sum_rejected hp hq]
        simp
    _ = p v := by
        rw [sum_mul_corrected, corrected_eq]
        ring

end Finite

end Slakshna.Rejection

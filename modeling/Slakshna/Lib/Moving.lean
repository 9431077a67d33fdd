import Mathlib.Algebra.Order.BigOperators.Group.List
import Mathlib.Algebra.Order.Field.Basic
import Mathlib.Data.List.DropRight
import Mathlib.Data.List.Induction
import Mathlib.Tactic.Linarith

/-! Numbers that sum up a series of others: its mean, an average that moves with it, and the mean of
its last values. None of them leaves the range of the series. -/
namespace Slakshna.Moving
variable {K : Type*}

def push (n : ℕ) (queue : List K) (x : K) : List K := (queue ++ [x]).rtake n

theorem rtake_push (n : ℕ) (xs : List K) (x : K) : push n (xs.rtake n) x = (xs ++ [x]).rtake n := by
  cases n with
  | zero => simp [push]
  | succ n =>
    rw [push, List.rtake_concat_succ, List.rtake_concat_succ]
    congr 1
    rw [List.rtake, List.rtake, List.rtake, List.drop_drop, List.length_drop]
    congr 1
    omega

variable [Field K] [LinearOrder K] [IsStrictOrderedRing K]

def mean (xs : List K) : K := xs.sum / xs.length

def smooth (alpha : K) : Option K → K → K
  | none, x => x
  | some ema, x => (1 - alpha) * ema + alpha * x

structure Among (xs : List K) (v : K) : Prop where
  above : ∃ a ∈ xs, a ≤ v
  below : ∃ b ∈ xs, v ≤ b

omit [Field K] [IsStrictOrderedRing K] in
theorem Among.mono {xs ys : List K} {v : K} (h : Among xs v) (hsub : xs ⊆ ys) : Among ys v where
  above := h.above.imp fun _ ha => ⟨hsub ha.1, ha.2⟩
  below := h.below.imp fun _ hb => ⟨hsub hb.1, hb.2⟩

theorem mean_among {xs : List K} (hne : xs ≠ []) : Among xs (mean xs) := by
  have hpos : (0 : K) < xs.length := Nat.cast_pos.2 (List.length_pos_iff.2 hne)
  have hsum : xs.sum = (xs.map (fun _ => mean xs)).sum := by
    rw [List.map_const', List.sum_replicate, nsmul_eq_mul, mean, mul_div_cancel₀ _ hpos.ne']
  constructor
  · by_contra hnone
    have hall : ∀ a ∈ xs, mean xs < a := fun a ha => lt_of_not_ge fun hle => hnone ⟨a, ha, hle⟩
    obtain ⟨x, hx⟩ := List.exists_mem_of_ne_nil xs hne
    have hlt : (xs.map (fun _ => mean xs)).sum < (xs.map id).sum :=
      List.sum_lt_sum _ _ (fun a ha => (hall a ha).le) ⟨x, hx, hall x hx⟩
    rw [List.map_id, ← hsum] at hlt
    exact lt_irrefl _ hlt
  · by_contra hnone
    have hall : ∀ b ∈ xs, b < mean xs := fun b hb => lt_of_not_ge fun hle => hnone ⟨b, hb, hle⟩
    obtain ⟨x, hx⟩ := List.exists_mem_of_ne_nil xs hne
    have hlt : (xs.map id).sum < (xs.map (fun _ => mean xs)).sum :=
      List.sum_lt_sum _ _ (fun b hb => (hall b hb).le) ⟨x, hx, hall x hx⟩
    rw [List.map_id, ← hsum] at hlt
    exact lt_irrefl _ hlt

theorem smooth_among {alpha : K} (hpos : 0 ≤ alpha) (hone : alpha ≤ 1) {xs : List K}
    {ema : Option K} (h : ∀ v ∈ ema, Among xs v) (x : K) : Among (xs ++ [x]) (smooth alpha ema x) := by
  cases ema with
  | none => exact ⟨⟨x, by simp, le_rfl⟩, ⟨x, by simp, le_rfl⟩⟩
  | some v =>
    obtain ⟨⟨a, ha, hav⟩, ⟨b, hb, hvb⟩⟩ := h v rfl
    have hweight : 0 ≤ 1 - alpha := sub_nonneg.2 hone
    rw [smooth]
    rcases le_total v x with hle | hle
    · refine ⟨⟨a, by simp [ha], ?_⟩, ⟨x, by simp, ?_⟩⟩
      · have := mul_le_mul_of_nonneg_left hle hpos
        linarith
      · have := mul_le_mul_of_nonneg_left hle hweight
        linarith
    · refine ⟨⟨x, by simp, ?_⟩, ⟨b, by simp [hb], ?_⟩⟩
      · have := mul_le_mul_of_nonneg_left hle hweight
        linarith
      · have := mul_le_mul_of_nonneg_left hle hpos
        linarith

theorem le_smooth {alpha : K} (hone : alpha ≤ 1) {ema : Option K} (h : ∀ v ∈ ema, 0 ≤ v) {x : K}
    (hx : 0 ≤ x) : alpha * x ≤ smooth alpha ema x := by
  cases ema with
  | none => exact mul_le_of_le_one_left hx hone
  | some v =>
    have hrest := mul_nonneg (sub_nonneg.2 hone) (h v rfl)
    rw [smooth]
    linarith

end Slakshna.Moving

import Mathlib.Algebra.BigOperators.Group.Finset.Piecewise
import Mathlib.Algebra.Order.BigOperators.Group.Finset
import Mathlib.Algebra.Order.Field.Basic
import Mathlib.Data.Finset.Max
import Mathlib.Tactic.Ring
import Mathlib.Tactic.Linarith

/-! Vectors cut down to a set of entries. A set that no entry outside exceeds in absolute value gives
the best approximation with that many entries. -/
namespace Slakshna.TopK
variable {ι K : Type*} [DecidableEq ι] [Field K] [LinearOrder K]

def Dominates (S : Finset ι) (a : ι → K) : Prop := ∀ i ∈ S, ∀ j ∉ S, a j ≤ a i

theorem sum_le_of_dominates [IsStrictOrderedRing K] {S U : Finset ι} {a : ι → K}
    (ha : ∀ i, 0 ≤ a i) (hS : Dominates S a) (hcard : U.card ≤ S.card) :
    ∑ i ∈ U, a i ≤ ∑ i ∈ S, a i := by
  have hsdiff : (U \ S).card ≤ (S \ U).card := by
    have hU := Finset.card_sdiff_add_card_inter U S
    have hS' := Finset.card_sdiff_add_card_inter S U
    rw [Finset.inter_comm] at hS'
    omega
  have houter : ∑ i ∈ U \ S, a i ≤ ∑ i ∈ S \ U, a i := by
    rcases (S \ U).eq_empty_or_nonempty with hempty | hne
    · have hnone : U \ S = ∅ := by
        rw [hempty, Finset.card_empty, Nat.le_zero, Finset.card_eq_zero] at hsdiff
        exact hsdiff
      rw [hempty, hnone]
    · obtain ⟨m, hm, hmin⟩ := Finset.exists_min_image (S \ U) a hne
      calc ∑ i ∈ U \ S, a i ≤ (U \ S).card • a m := by
            apply Finset.sum_le_card_nsmul
            intro j hj
            exact hS m (Finset.mem_sdiff.1 hm).1 j (Finset.mem_sdiff.1 hj).2
        _ ≤ (S \ U).card • a m := nsmul_le_nsmul_left (ha m) hsdiff
        _ ≤ ∑ i ∈ S \ U, a i := Finset.card_nsmul_le_sum _ _ _ hmin
  have hU := Finset.sum_inter_add_sum_sdiff U S a
  have hS' := Finset.sum_inter_add_sum_sdiff S U a
  rw [Finset.inter_comm] at hS'
  rw [← hU, ← hS']
  exact add_le_add (le_refl _) houter

variable [Fintype ι]

def keep (S : Finset ι) (v : ι → K) : ι → K := fun i => if i ∈ S then v i else 0

def support (v : ι → K) : Finset ι := Finset.univ.filter (fun i => v i ≠ 0)

def sqDist (u v : ι → K) : K := ∑ i, (u i - v i) ^ 2

omit [LinearOrder K] in
theorem sqDist_keep (S : Finset ι) (v : ι → K) : sqDist (keep S v) v = ∑ i ∈ Sᶜ, v i ^ 2 := by
  rw [sqDist, ← Finset.sum_subset (Finset.subset_univ Sᶜ)]
  · apply Finset.sum_congr rfl
    intro i hi
    rw [keep, if_neg (Finset.mem_compl.1 hi)]
    ring
  · intro i _ hi
    rw [keep, if_pos (by simpa using hi)]
    ring

section Order
variable [IsStrictOrderedRing K]

theorem sum_sq_le_sqDist (w v : ι → K) : ∑ i ∈ (support w)ᶜ, v i ^ 2 ≤ sqDist w v := by
  calc ∑ i ∈ (support w)ᶜ, v i ^ 2 = ∑ i ∈ (support w)ᶜ, (w i - v i) ^ 2 := by
        apply Finset.sum_congr rfl
        intro i hi
        have hzero : w i = 0 := by simpa [support] using hi
        rw [hzero]
        ring
    _ ≤ sqDist w v :=
        Finset.sum_le_sum_of_subset_of_nonneg (Finset.subset_univ _) (fun i _ _ => sq_nonneg _)

theorem sqDist_keep_le {S : Finset ι} {v w : ι → K} (hS : Dominates S (fun i => |v i|))
    (hcard : (support w).card ≤ S.card) : sqDist (keep S v) v ≤ sqDist w v := by
  have hsquares : Dominates S (fun i => v i ^ 2) := fun i hi j hj => sq_le_sq.2 (hS i hi j hj)
  have hkept := sum_le_of_dominates (fun i => sq_nonneg (v i)) hsquares hcard
  have hw := sum_sq_le_sqDist w v
  rw [sqDist_keep]
  have hall := Finset.sum_add_sum_compl S (fun i => v i ^ 2)
  have hall' := Finset.sum_add_sum_compl (support w) (fun i => v i ^ 2)
  linarith

omit [Fintype ι] in
theorem keep_keep {S T : Finset ι} {v : ι → K} (hT : Dominates T (fun i => |keep S v i|))
    (hcard : S.card ≤ T.card) : keep T (keep S v) = keep S v := by
  funext i
  by_cases hi : i ∈ T
  · rw [keep, if_pos hi]
  · rw [keep, if_neg hi]
    by_cases hS : i ∈ S
    · -- `T` has an entry that `S` has not, and it is zero.
      obtain ⟨j, hjT, hjS⟩ : ∃ j ∈ T, j ∉ S := by
        by_contra hnone
        have hsub : T ⊆ S := fun j hj => by_contra (fun hjS => hnone ⟨j, hj, hjS⟩)
        exact hi (Finset.eq_of_subset_of_card_le hsub hcard ▸ hS)
      have hle : |keep S v i| ≤ |keep S v j| := hT j hjT i hi
      have hzero : keep S v j = 0 := if_neg hjS
      rw [hzero, abs_zero] at hle
      exact (abs_nonpos_iff.1 hle).symm
    · rw [keep, if_neg hS]

end Order

end Slakshna.TopK

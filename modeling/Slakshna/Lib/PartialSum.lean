import Mathlib.Algebra.Order.BigOperators.Group.List
import Mathlib.Algebra.Order.Group.Defs
import Mathlib.Data.Nat.Find

/-! The sums of the prefixes of a list of weighted elements, and the shortest prefix that reaches a
threshold. -/
namespace Slakshna.PartialSum
variable {α K : Type*} [AddCommGroup K]

def partialSum (w : α → K) (l : List α) (n : ℕ) : K := ((l.take n).map w).sum

variable {w : α → K} {l : List α} {m n : ℕ} {p : K}

@[simp] theorem partialSum_zero : partialSum w l 0 = 0 := by simp [partialSum]

theorem partialSum_succ (h : n < l.length) :
    partialSum w l (n + 1) = partialSum w l n + w l[n] := by
  rw [partialSum, List.take_add_one, List.getElem?_eq_getElem h, List.map_append, List.sum_append]
  simp [partialSum]

theorem partialSum_of_length_le (h : l.length ≤ n) : partialSum w l n = (l.map w).sum := by
  rw [partialSum, List.take_of_length_le h]

theorem exists_ne_zero (h : partialSum w l n ≠ (l.map w).sum) : ∃ a ∈ l.drop n, w a ≠ 0 := by
  by_contra hnone
  have hrest : ((l.drop n).map w).sum = 0 := by
    apply List.sum_eq_zero
    intro x hx
    obtain ⟨a, ha, rfl⟩ := List.mem_map.1 hx
    exact by_contra (fun hne => hnone ⟨a, ha, hne⟩)
  apply h
  conv_rhs => rw [← List.take_append_drop n l]
  rw [List.map_append, List.sum_append, hrest, add_zero, partialSum]

section Order
variable [LinearOrder K] [IsOrderedAddMonoid K]

theorem partialSum_mono (hw : ∀ a ∈ l, 0 ≤ w a) : Monotone (partialSum w l) := by
  apply monotone_nat_of_le_succ
  intro n
  cases lt_or_ge n l.length with
  | inl h =>
    rw [partialSum_succ h]
    exact le_add_of_nonneg_right (hw _ (List.getElem_mem h))
  | inr h => rw [partialSum_of_length_le h, partialSum_of_length_le (h.trans n.le_succ)]

structure Reaches (w : α → K) (l : List α) (p : K) (n : ℕ) : Prop where
  le : p ≤ partialSum w l n
  least : ∀ m < n, partialSum w l m < p

omit [IsOrderedAddMonoid K] in
theorem exists_reaches (h : p ≤ (l.map w).sum) : ∃ n ≤ l.length, Reaches w l p n := by
  have hlast : p ≤ partialSum w l l.length := by rwa [partialSum_of_length_le le_rfl]
  have hexists : ∃ n, p ≤ partialSum w l n := ⟨_, hlast⟩
  exact ⟨Nat.find hexists, Nat.find_min' hexists hlast, Nat.find_spec hexists,
    fun m hm => not_le.1 (Nat.find_min hexists hm)⟩

theorem Reaches.lt_iff (h : Reaches w l p n) (hw : ∀ a ∈ l, 0 ≤ w a) :
    partialSum w l m < p ↔ m < n := by
  constructor
  · intro hless
    by_contra hnot
    exact absurd (h.le.trans (partialSum_mono hw (not_lt.1 hnot))) (not_le.2 hless)
  · exact h.least m

theorem Reaches.eq_of_hit (h : Reaches w l p n) (hw : ∀ a ∈ l, 0 ≤ w a)
    (hit : partialSum w l m = p) : partialSum w l n = p := by
  have hle : n ≤ m := by
    by_contra hnot
    exact absurd hit (h.least m (not_le.1 hnot)).ne
  exact le_antisymm ((partialSum_mono hw hle).trans_eq hit) h.le

end Order

end Slakshna.PartialSum

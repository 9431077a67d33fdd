import Mathlib.Data.List.Perm.Basic
import Mathlib.Order.Lattice
import Mathlib.Order.Defs.LinearOrder
import Mathlib.Order.MinMax

/-! Rows of different lengths, read by columns. -/
namespace Slakshna.Columns
variable {α : Type*}

def column (rows : List (List α)) (n : ℕ) : List α := rows.filterMap (fun xs => xs[n]?)

def width (rows : List (List α)) : ℕ := rows.foldr (fun xs w => max xs.length w) 0

theorem length_le_width {rows : List (List α)} {xs : List α} (h : xs ∈ rows) :
    xs.length ≤ width rows := by
  induction rows with
  | nil => cases h
  | cons ys rows ih =>
    cases List.mem_cons.1 h with
    | inl heq => exact heq ▸ le_max_left _ _
    | inr hmem => exact (ih hmem).trans (le_max_right _ _)

theorem exists_of_lt_width {rows : List (List α)} {n : ℕ} (h : n < width rows) :
    ∃ xs ∈ rows, n < xs.length := by
  induction rows with
  | nil => cases h
  | cons ys rows ih =>
    cases lt_max_iff.1 h with
    | inl hys => exact ⟨ys, List.mem_cons_self, hys⟩
    | inr hrest =>
      obtain ⟨xs, hxs, hlt⟩ := ih hrest
      exact ⟨xs, List.mem_cons_of_mem ys hxs, hlt⟩

theorem column_eq_nil_iff {rows : List (List α)} {n : ℕ} :
    column rows n = [] ↔ width rows ≤ n := by
  rw [column, List.filterMap_eq_nil_iff]
  constructor
  · intro h
    by_contra hlt
    obtain ⟨xs, hxs, hlen⟩ := exists_of_lt_width (not_le.1 hlt)
    exact absurd (List.getElem?_eq_none_iff.1 (h xs hxs)) (not_le.2 hlen)
  · intro h xs hxs
    exact List.getElem?_eq_none ((length_le_width hxs).trans h)

theorem flatMap_getElem? {xs : List α} {n : ℕ} (h : xs.length ≤ n) :
    (List.range n).flatMap (fun i => xs[i]?.toList) = xs := by
  induction n generalizing xs with
  | zero =>
    rw [List.length_eq_zero_iff.1 (Nat.le_zero.1 h)]
    rfl
  | succ n ih =>
    cases xs with
    | nil => simp
    | cons x xs =>
      rw [List.range_succ_eq_map, List.flatMap_cons, List.flatMap_map]
      exact congrArg (List.cons x) (ih (Nat.le_of_succ_le_succ h))

theorem flatMap_column_perm {rows : List (List α)} {n : ℕ} (h : width rows ≤ n) :
    ((List.range n).flatMap (column rows)).Perm rows.flatten := by
  induction rows with
  | nil =>
    have hnone : ∀ i ∈ List.range n, column ([] : List (List α)) i = [] := fun _ _ => rfl
    rw [List.flatMap_eq_nil_iff.2 hnone]
    exact List.Perm.refl _
  | cons xs rows ih =>
    have hcons : ∀ i, column (xs :: rows) i = xs[i]?.toList ++ column rows i := by
      intro i
      rw [column, List.filterMap_cons]
      cases xs[i]? <;> rfl
    have hxs := flatMap_getElem? ((le_max_left _ _).trans h)
    rw [List.flatten_cons]
    rw [List.flatMap_congr (fun i _ => hcons i)]
    refine (List.flatMap_append_perm _ _ _).symm.trans ?_
    rw [hxs]
    exact (ih ((le_max_right _ _).trans h)).append_left xs

end Slakshna.Columns

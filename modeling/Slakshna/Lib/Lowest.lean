import Mathlib.Data.List.DropRight
import Mathlib.Data.List.Sort

/-! The elements of a list with the lowest keys, and what is left over. -/
namespace Slakshna.Lowest
open scoped List
variable {α β R : Type*} [LinearOrder R] (key : α → R)

def sortBy (l : List α) : List α := l.insertionSort (fun a b => key a ≤ key b)

def lowest (n : ℕ) (l : List α) : List α := (sortBy key l).take n

theorem sortBy_perm (l : List α) : sortBy key l ~ l := List.perm_insertionSort _ l

theorem sortBy_pairwise (l : List α) : (sortBy key l).Pairwise (fun a b => key a ≤ key b) :=
  List.pairwise_insertionSort _ l

theorem length_sortBy (l : List α) : (sortBy key l).length = l.length := (sortBy_perm key l).length_eq

theorem length_lowest (n : ℕ) (l : List α) : (lowest key n l).length = min n l.length := by
  rw [lowest, List.length_take, length_sortBy]

theorem lowest_append_drop (n : ℕ) (l : List α) :
    lowest key n l ++ (sortBy key l).drop n = sortBy key l := List.take_append_drop n _

theorem mem_of_mem_lowest {n : ℕ} {l : List α} {a : α} (h : a ∈ lowest key n l) : a ∈ l :=
  (sortBy_perm key l).mem_iff.1 (List.mem_of_mem_take h)

theorem sortBy_map (f : β → α) (l : List β) :
    sortBy key (l.map f) = (sortBy (fun b => key (f b)) l).map f :=
  (List.map_insertionSort _ _ f l (fun _ _ _ _ => Iff.rfl)).symm

theorem sortBy_eq_self {l : List α} (h : l.Pairwise (fun a b => key a ≤ key b)) :
    sortBy key l = l := h.insertionSort_eq

theorem le_of_mem_take_of_mem_drop {n : ℕ} {l : List α} {a b : α} (ha : a ∈ (sortBy key l).take n)
    (hb : b ∈ (sortBy key l).drop n) : key a ≤ key b :=
  (sortBy_pairwise key l).rel_of_mem_take_of_mem_drop ha hb

theorem eq_of_filter_key [DecidableEq R] {l l' : List α} (hl : l.Pairwise (fun a b => key a ≤ key b))
    (hl' : l'.Pairwise (fun a b => key a ≤ key b))
    (h : ∀ k, l.filter (fun a => key a = k) = l'.filter (fun a => key a = k)) : l = l' := by
  induction l generalizing l' with
  | nil =>
    cases l' with
    | nil => rfl
    | cons b bs => simpa using h (key b)
  | cons a as ih =>
    cases l' with
    | nil => simpa using h (key a)
    | cons b bs =>
      obtain ⟨ha, has⟩ := List.pairwise_cons.1 hl
      obtain ⟨hb, hbs⟩ := List.pairwise_cons.1 hl'
      -- each head is somewhere in the other list, so neither key is lower
      have hmem : a ∈ (b :: bs).filter (fun c => key c = key a) := by simp [← h]
      have hmem' : b ∈ (a :: as).filter (fun c => key c = key b) := by simp [h]
      have hle : key b ≤ key a := by
        cases List.mem_cons.1 (List.mem_filter.1 hmem).1 with
        | inl heq => rw [heq]
        | inr hin => exact hb a hin
      have hle' : key a ≤ key b := by
        cases List.mem_cons.1 (List.mem_filter.1 hmem').1 with
        | inl heq => rw [heq]
        | inr hin => exact ha b hin
      have hkey : key a = key b := le_antisymm hle' hle
      have hheads := h (key a)
      simp only [List.filter_cons, hkey, decide_true, if_true] at hheads
      obtain ⟨rfl, -⟩ := List.cons.inj hheads
      rw [ih has hbs]
      intro k
      have hk := h k
      rw [List.filter_cons, List.filter_cons] at hk
      split at hk
      · exact (List.cons.inj hk).2
      · exact hk

theorem mem_of_getLast?_sortBy {l : List α} {a : α} (h : (sortBy key l).getLast? = some a) :
    a ∈ l ∧ ∀ b ∈ l, key b ≤ key a := by
  obtain ⟨init, hinit⟩ := List.getLast?_eq_some_iff.1 h
  have hsorted := sortBy_pairwise key l
  rw [hinit, List.pairwise_append] at hsorted
  constructor
  · rw [← (sortBy_perm key l).mem_iff, hinit]
    exact List.mem_append_right _ (List.mem_singleton_self a)
  · intro b hb
    rw [← (sortBy_perm key l).mem_iff, hinit, List.mem_append, List.mem_singleton] at hb
    rcases hb with hb | rfl
    · exact hsorted.2.2 b hb a (List.mem_singleton_self a)
    · exact le_refl _

theorem mem_drop_sortBy_iff {n : ℕ} {l : List α} {a : α} (hl : l.length = n + 1)
    (h : (l.map key).Nodup) (ha : a ∈ l) :
    a ∈ (sortBy key l).drop n ↔ ∀ b ∈ l, key b ≤ key a := by
  have hmem : ∀ b ∈ l, b ∈ (sortBy key l).take n ∨ b ∈ (sortBy key l).drop n := by
    intro b hb
    rw [← List.mem_append, List.take_append_drop]
    exact (sortBy_perm key l).mem_iff.2 hb
  have hdropped : ((sortBy key l).drop n).length = 1 := by
    rw [List.length_drop, length_sortBy, hl]
    omega
  obtain ⟨w, hw⟩ := List.length_eq_one_iff.1 hdropped
  have hwdrop : w ∈ (sortBy key l).drop n := by
    rw [hw]
    exact List.mem_singleton_self w
  constructor
  · intro hdrop b hb
    cases hmem b hb with
    | inl htake => exact le_of_mem_take_of_mem_drop key htake hdrop
    | inr hb =>
      rw [hw, List.mem_singleton] at hb hdrop
      rw [hb, hdrop]
  · intro hmax
    cases hmem a ha with
    | inl htake =>
      have hwl := (sortBy_perm key l).mem_iff.1 (List.mem_of_mem_drop hwdrop)
      have hle := le_of_mem_take_of_mem_drop key htake hwdrop
      rwa [List.inj_on_of_nodup_map h ha hwl (le_antisymm hle (hmax w hwl))]
    | inr hdrop => exact hdrop

theorem sortBy_concat {l : List α} {c : α} (h : ((l ++ [c]).map key).Nodup) :
    sortBy key (l ++ [c]) = (sortBy key l).orderedInsert (fun a b => key a ≤ key b) c := by
  have hperm : sortBy key (l ++ [c]) ~ (sortBy key l).orderedInsert (fun a b => key a ≤ key b) c :=
    calc
      sortBy key (l ++ [c]) ~ l ++ [c] := sortBy_perm key _
      _ ~ c :: l := List.perm_append_singleton c l
      _ ~ c :: sortBy key l := (sortBy_perm key l).symm.cons c
      _ ~ (sortBy key l).orderedInsert (fun a b => key a ≤ key b) c :=
        (List.perm_orderedInsert _ c _).symm
  refine List.Perm.eq_of_pairwise ?_ (sortBy_pairwise key _)
    ((sortBy_pairwise key l).orderedInsert c _) hperm
  intro a b ha hb hab hba
  have ha := (sortBy_perm key _).mem_iff.1 ha
  have hb := (sortBy_perm key _).mem_iff.1 (hperm.mem_iff.2 hb)
  exact List.inj_on_of_nodup_map h ha hb (le_antisymm hab hba)

theorem take_orderedInsert (c : α) (n : ℕ) (l : List α) :
    ((l.take n).orderedInsert (fun a b => key a ≤ key b) c).take n =
      (l.orderedInsert (fun a b => key a ≤ key b) c).take n := by
  induction l generalizing n with
  | nil => simp
  | cons a l ih =>
    cases n with
    | zero => simp
    | succ n =>
      rw [List.take_succ_cons, List.orderedInsert_cons, List.orderedInsert_cons]
      by_cases hc : key c ≤ key a
      · rw [if_pos hc, if_pos hc, List.take_succ_cons, List.take_succ_cons]
        cases n with
        | zero => simp
        | succ n => simp [List.take_take]
      · rw [if_neg hc, if_neg hc, List.take_succ_cons, List.take_succ_cons, ih]

theorem lowest_concat {l : List α} {c : α} (h : ((l ++ [c]).map key).Nodup) (n : ℕ) :
    lowest key n (lowest key n l ++ [c]) = lowest key n (l ++ [c]) := by
  have hsub : ((lowest key n l ++ [c]).map key).Nodup := by
    have hall : ((sortBy key l ++ [c]).map key).Nodup :=
      (((sortBy_perm key l).append_right [c]).map key).nodup_iff.2 h
    exact hall.sublist (((List.take_sublist n _).append_right [c]).map key)
  have hsorted : sortBy key (lowest key n l) = lowest key n l :=
    sortBy_eq_self key ((sortBy_pairwise key l).sublist (List.take_sublist n _))
  rw [lowest, sortBy_concat key hsub, hsorted, lowest, take_orderedInsert, lowest,
    sortBy_concat key h]

theorem lowest_falling {l : List α} (h : l.Pairwise (fun a b => key b < key a)) (n : ℕ) :
    lowest key n l = (l.rtake n).reverse := by
  have hnodup : (l.map key).Nodup := by
    rw [List.Nodup, List.pairwise_map]
    exact h.imp (fun hlt => hlt.ne')
  have hreverse : l.reverse.Pairwise (fun a b => key a ≤ key b) :=
    List.pairwise_reverse.2 (h.imp le_of_lt)
  have hsort : sortBy key l = l.reverse := by
    refine List.Perm.eq_of_pairwise ?_ (sortBy_pairwise key l) hreverse
      ((sortBy_perm key l).trans (List.reverse_perm l).symm)
    intro a b ha hb hab hba
    exact List.inj_on_of_nodup_map hnodup ((sortBy_perm key l).mem_iff.1 ha) (List.mem_reverse.1 hb)
      (hab.antisymm hba)
  rw [lowest, hsort, List.rtake_eq_reverse_take_reverse, List.reverse_reverse]

end Slakshna.Lowest

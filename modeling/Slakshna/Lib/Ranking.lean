import Mathlib.Data.Finset.Sort
import Mathlib.Data.List.Sort

/-! Ranking finitely many ids by a score, best first, the smaller id first among equals. The order
is total whatever the scores, so a ranking is determined by the set of ids and their scores. -/
namespace Slakshna.Ranking
open scoped List
variable {ι R : Type*} [LinearOrder ι] [LinearOrder R]

def Ahead (p q : ι × R) : Prop := q.2 < p.2 ∨ (p.2 = q.2 ∧ p.1 ≤ q.1)

theorem ahead_trans {p q r : ι × R} (hpq : Ahead p q) (hqr : Ahead q r) : Ahead p r := by
  rcases hpq with hpq | ⟨hpq, hle⟩
  · rcases hqr with hqr | ⟨hqr, _⟩
    · exact Or.inl (hqr.trans hpq)
    · exact Or.inl (hqr ▸ hpq)
  · rcases hqr with hqr | ⟨hqr, hle'⟩
    · exact Or.inl (hpq ▸ hqr)
    · exact Or.inr ⟨hpq.trans hqr, hle.trans hle'⟩

theorem ahead_antisymm {p q : ι × R} (hpq : Ahead p q) (hqp : Ahead q p) : p.1 = q.1 := by
  rcases hpq with hpq | ⟨hpq, hle⟩
  · rcases hqp with hqp | ⟨hqp, _⟩
    · exact absurd hpq (lt_asymm hqp)
    · exact absurd hqp hpq.ne
  · rcases hqp with hqp | ⟨_, hle'⟩
    · exact absurd hpq hqp.ne
    · exact le_antisymm hle hle'

theorem ahead_total (p q : ι × R) : Ahead p q ∨ Ahead q p := by
  rcases lt_trichotomy p.2 q.2 with h | h | h
  · exact Or.inr (Or.inl h)
  · exact (le_total p.1 q.1).imp (fun hle => Or.inr ⟨h, hle⟩) (fun hle => Or.inr ⟨h.symm, hle⟩)
  · exact Or.inl (Or.inl h)

def Before (score : ι → R) (a b : ι) : Prop := Ahead (a, score a) (b, score b)

instance (score : ι → R) : DecidableRel (Before score) :=
  fun _ _ => inferInstanceAs (Decidable (_ ∨ _))

instance (score : ι → R) : IsTrans ι (Before score) := ⟨fun _ _ _ => ahead_trans⟩

instance (score : ι → R) : Std.Antisymm (Before score) := ⟨fun _ _ => ahead_antisymm⟩

instance (score : ι → R) : Std.Total (Before score) := ⟨fun _ _ => ahead_total _ _⟩

def ranking (score : ι → R) (ids : Finset ι) : List ι := ids.sort (Before score)

def sortScored (l : List (ι × R)) : List (ι × R) :=
  l.mergeSort (fun p q => ((compare q.2 p.2).then (compare p.1 q.1)).isLE)

theorem compareScored_isLE (p q : ι × R) :
    ((compare q.2 p.2).then (compare p.1 q.1)).isLE = true ↔ Ahead p q := by
  unfold Ahead
  rcases lt_trichotomy q.2 p.2 with h | h | h
  · simp [compare_lt_iff_lt.2 h, h]
  · simp [h, Ordering.isLE_iff_ne_gt, compare_gt_iff_gt]
  · simp [compare_gt_iff_gt.2 h, h.ne, not_lt_of_gt h]

theorem sortScored_perm (l : List (ι × R)) : (sortScored l).Perm l := List.mergeSort_perm l _

theorem sortScored_pairwise (l : List (ι × R)) : (sortScored l).Pairwise Ahead := by
  have hsorted : (sortScored l).Pairwise
      (fun p q => ((compare q.2 p.2).then (compare p.1 q.1)).isLE = true) :=
    List.pairwise_mergeSort
      (by simpa only [compareScored_isLE] using fun _ _ _ => ahead_trans)
      (by simpa only [Bool.or_eq_true, compareScored_isLE] using ahead_total) l
  exact hsorted.imp (fun h => (compareScored_isLE _ _).1 h)

theorem map_fst_sortScored (score : ι → R) (l : List (ι × R)) (hl : ∀ p ∈ l, p.2 = score p.1)
    (hn : (l.map Prod.fst).Nodup) :
    (sortScored l).map Prod.fst = ranking score (l.map Prod.fst).toFinset := by
  apply List.Perm.eq_of_pairwise' (r := Before score)
  · rw [List.pairwise_map]
    refine (sortScored_pairwise l).imp_of_mem ?_
    intro p q hp hq hpq
    have h1 := hl p ((sortScored_perm l).mem_iff.1 hp)
    have h2 := hl q ((sortScored_perm l).mem_iff.1 hq)
    simpa [Before, Ahead, h1, h2] using hpq
  · exact Finset.pairwise_sort _ _
  · calc
      (sortScored l).map Prod.fst ~ l.map Prod.fst := (sortScored_perm l).map Prod.fst
      _ ~ (l.map Prod.fst).toFinset.toList := (List.toFinset_toList hn).symm
      _ ~ ranking score (l.map Prod.fst).toFinset := (Finset.sort_perm_toList _ _).symm

section First
variable {score score' : ι → R} {ids : Finset ι} {k : ℕ} {a x : ι}

def above (score : ι → R) (ids : Finset ι) (a : ι) : Finset ι :=
  ids.filter (fun b => b ≠ a ∧ Before score b a)

theorem above_eq {xs ys : List ι} (h : ranking score ids = xs ++ a :: ys) :
    above score ids a = xs.toFinset := by
  have hnodup : (xs ++ a :: ys).Nodup := h ▸ Finset.sort_nodup _ _
  have hsorted : (xs ++ a :: ys).Pairwise (Before score) := h ▸ Finset.pairwise_sort _ _
  have hmem : ∀ b, b ∈ ids ↔ b ∈ xs ++ a :: ys := by
    intro b
    rw [← h]
    exact (Finset.mem_sort _).symm
  obtain ⟨-, hys, hacross⟩ := List.pairwise_append.1 hsorted
  ext b
  rw [above, Finset.mem_filter, hmem, List.mem_toFinset]
  constructor
  · rintro ⟨hb, hne, hbefore⟩
    cases List.mem_append.1 hb with
    | inl hb => exact hb
    | inr hb =>
      have hafter := (List.pairwise_cons.1 hys).1 b (List.mem_of_ne_of_mem hne hb)
      exact absurd (ahead_antisymm hbefore hafter) hne
  · intro hb
    have hne := (List.nodup_append.1 hnodup).2.2 b hb a List.mem_cons_self
    exact ⟨List.mem_append_left _ hb, hne, hacross b hb a List.mem_cons_self⟩

theorem mem_take_ranking :
    a ∈ (ranking score ids).take k ↔ a ∈ ids ∧ (above score ids a).card < k := by
  by_cases ha : a ∈ ids
  · have hmem : a ∈ ranking score ids := (Finset.mem_sort _).2 ha
    obtain ⟨xs, ys, hsplit⟩ := List.append_of_mem hmem
    have hnodup : (xs ++ a :: ys).Nodup := hsplit ▸ Finset.sort_nodup _ _
    have hxs : a ∉ xs := fun h => (List.nodup_append.1 hnodup).2.2 a h a List.mem_cons_self rfl
    have hcard : (above score ids a).card = xs.length := by
      rw [above_eq hsplit]
      exact List.toFinset_card_of_nodup (List.nodup_append.1 hnodup).1
    rw [List.mem_take_iff_idxOf_lt hmem, hcard, hsplit, List.idxOf_append_of_notMem hxs,
      List.idxOf_cons_self]
    simp [ha]
  · have hnone : a ∉ (ranking score ids).take k :=
      fun h => ha ((Finset.mem_sort _).1 (List.mem_of_mem_take h))
    simp [ha, hnone]

theorem Ahead.mono {b : ι} {s s' t t' : R} (h : Ahead (a, s) (b, t)) (hs : s ≤ s') (ht : t' ≤ t) :
    Ahead (a, s') (b, t') := by
  rcases h with hlt | ⟨heq, hle⟩
  · exact .inl (ht.trans_lt (hlt.trans_le hs))
  · have hle' : t' ≤ s' := ht.trans (heq.ge.trans hs)
    exact hle'.lt_or_eq.imp_right (fun hsame => ⟨hsame.symm, hle⟩)

structure Raised (score score' : ι → R) (x : ι) : Prop where
  le : score x ≤ score' x
  other : ∀ a, a ≠ x → score' a = score a

theorem Raised.above_self (h : Raised score score' x) :
    above score' (insert x ids) x ⊆ above score ids x := by
  intro b hb
  rw [above, Finset.mem_filter] at hb ⊢
  obtain ⟨hmem, hne, hbefore⟩ := hb
  refine ⟨(Finset.mem_insert.1 hmem).resolve_left hne, hne, ?_⟩
  rw [Before, h.other b hne] at hbefore
  exact hbefore.mono le_rfl h.le

theorem Raised.above_other (h : Raised score score' x) (hne : a ≠ x) :
    above score ids a ⊆ above score' (insert x ids) a := by
  intro b hb
  rw [above, Finset.mem_filter] at hb ⊢
  obtain ⟨hmem, hba, hbefore⟩ := hb
  refine ⟨Finset.mem_insert_of_mem hmem, hba, ?_⟩
  rw [Before, h.other a hne]
  by_cases hbx : b = x
  · rw [hbx] at hbefore ⊢
    exact hbefore.mono h.le le_rfl
  · rwa [h.other b hbx]

theorem Raised.first (h : Raised score score' x) (k : ℕ) :
    (x ∈ (ranking score ids).take k → x ∈ (ranking score' (insert x ids)).take k) ∧
      ∀ a ∈ (ranking score' (insert x ids)).take k, a ≠ x → a ∈ (ranking score ids).take k := by
  simp only [mem_take_ranking]
  constructor
  · rintro ⟨-, hcard⟩
    exact ⟨Finset.mem_insert_self x ids, (Finset.card_le_card h.above_self).trans_lt hcard⟩
  · rintro a ⟨hmem, hcard⟩ hne
    exact ⟨(Finset.mem_insert.1 hmem).resolve_left hne,
      (Finset.card_le_card (h.above_other hne)).trans_lt hcard⟩

end First

end Slakshna.Ranking

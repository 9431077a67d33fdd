import Mathlib.Algebra.Order.Floor.Semiring
import Mathlib.Data.Fin.VecNotation
import Mathlib.Data.Rat.Floor
import Mathlib.Tactic.NormNum
import Slakshna.Lib.Ranking
import Slakshna.Lib.TopK

/-! Tensors as a shape and entries in row-major order, and their cut to the largest entries, in exact
arithmetic. -/
namespace Slakshna.Engine
open TopK
variable {K : Type*}

structure Tensor (K : Type*) where
  shape : List ℕ
  entries : Fin shape.prod → K

namespace Tensor

abbrev numel (t : Tensor K) : ℕ := t.shape.prod

def reshape (t : Tensor K) (entries : Fin t.numel → K) : Tensor K := ⟨t.shape, entries⟩

section Arithmetic
variable [Field K]

def zerosLike (t : Tensor K) : Tensor K := t.reshape (fun _ => 0)

/-- `acc += weight * d` for tensors of one shape; another one is left out. -/
def addScaled (acc : Tensor K) (weight : K) (d : Tensor K) : Tensor K :=
  if h : d.shape = acc.shape then
    ⟨acc.shape, fun i => acc.entries i + weight * d.entries (i.cast (congrArg List.prod h.symm))⟩
  else acc

def entry (t : Tensor K) (i : ℕ) : K := if h : i < t.numel then t.entries ⟨i, h⟩ else 0

theorem entry_of_lt {t : Tensor K} {i : ℕ} (hi : i < t.numel) : t.entry i = t.entries ⟨i, hi⟩ :=
  dif_pos hi

theorem entry_of_le {t : Tensor K} {i : ℕ} (hi : t.numel ≤ i) : t.entry i = 0 :=
  dif_neg (Nat.not_lt.2 hi)

theorem ext_entry {t u : Tensor K} (hshape : t.shape = u.shape)
    (h : ∀ i, t.entry i = u.entry i) : t = u := by
  obtain ⟨shape, entries⟩ := t
  obtain ⟨shape', entries'⟩ := u
  obtain rfl : shape = shape' := hshape
  congr 1
  funext i
  have hi := h i
  rwa [entry, entry, dif_pos i.isLt, dif_pos i.isLt] at hi

@[simp] theorem entry_zerosLike (t : Tensor K) (i : ℕ) : t.zerosLike.entry i = 0 := by
  rw [entry]
  split <;> rfl

@[simp] theorem shape_zerosLike (t : Tensor K) : t.zerosLike.shape = t.shape := rfl

@[simp] theorem shape_addScaled (acc : Tensor K) (weight : K) (d : Tensor K) :
    (acc.addScaled weight d).shape = acc.shape := by
  rw [addScaled]
  split <;> rfl

theorem addScaled_of_ne {acc d : Tensor K} (h : d.shape ≠ acc.shape) (weight : K) :
    acc.addScaled weight d = acc := dif_neg h

theorem entry_addScaled {acc d : Tensor K} (h : d.shape = acc.shape) (weight : K) (i : ℕ) :
    (acc.addScaled weight d).entry i = acc.entry i + weight * d.entry i := by
  obtain ⟨shape, entries⟩ := acc
  obtain ⟨shape', entries'⟩ := d
  obtain rfl : shape' = shape := h
  rw [addScaled, dif_pos rfl]
  by_cases hi : i < shape'.prod
  · simp [entry, numel, hi]
  · simp [entry, numel, hi]

end Arithmetic

end Tensor

/-- `torch.topk` of a tensor with at least `k` entries: the places of `k` entries that no other one
exceeds, ties broken in any way. -/
structure TopIndices (K : Type*) [LinearOrder K] where
  pick {n : ℕ} (a : Fin n → K) (k : ℕ) : Finset (Fin n)
  card_pick {n : ℕ} (a : Fin n → K) {k : ℕ} (hk : k ≤ n) : (pick a k).card = k
  dominates_pick {n : ℕ} (a : Fin n → K) {k : ℕ} (hk : k ≤ n) : Dominates (pick a k) a

inductive TensorError where
  | kOutOfRange

section Sparsify
variable [Field K] [LinearOrder K] [IsStrictOrderedRing K] [FloorSemiring K]

/-- `max(1, int(numel * sparsity))` -/
def keptCount (n : ℕ) (sparsity : K) : ℕ := max 1 ⌊n * sparsity⌋₊

def sparsifyTensor (topk : TopIndices K) (t : Tensor K) (sparsity : K) :
    Except TensorError (Tensor K) :=
  if t.numel = 0 then .ok t
  else
    let k := keptCount t.numel sparsity
    if k ≤ t.numel then
      let idx := topk.pick (fun i : Fin t.numel => |t.entries i|) k
      let mask : Fin t.numel → K := fun i => if i ∈ idx then 1 else 0
      .ok (t.reshape (fun i => t.entries i * mask i))
    else .error .kOutOfRange

variable {t : Tensor K} {sparsity : K}

theorem keptCount_le {n : ℕ} (hn : 0 < n) (hle : sparsity ≤ 1) : keptCount n sparsity ≤ n := by
  have hfloor : ⌊n * sparsity⌋₊ ≤ ⌊(n : K)⌋₊ :=
    Nat.floor_le_floor (mul_le_of_le_one_right (Nat.cast_nonneg n) hle)
  rw [Nat.floor_natCast] at hfloor
  exact max_le hn hfloor

omit [IsStrictOrderedRing K] in
theorem sparsifyTensor_eq (topk : TopIndices K)
    (hk : keptCount t.numel sparsity ≤ t.numel) (hn : 0 < t.numel) :
    sparsifyTensor topk t sparsity = .ok (t.reshape
      (keep (topk.pick (fun i : Fin t.numel => |t.entries i|) (keptCount t.numel sparsity)) t.entries)) := by
  rw [sparsifyTensor, if_neg hn.ne', if_pos hk]
  simp only [mul_ite, mul_one, mul_zero]
  rfl

/-- The cut of a tensor that is not empty: exactly `k` entries stay, none that goes is larger, no
tensor with at most `k` entries other than zero is nearer, and a second cut changes nothing. -/
theorem sparsifyTensor_best (topk : TopIndices K) (t : Tensor K) (sparsity : K)
    (hn : 1 ≤ t.numel) (hle : sparsity ≤ 1) :
    ∃ S : Finset (Fin t.numel), S.card = max 1 ⌊t.numel * sparsity⌋₊ ∧
      sparsifyTensor topk t sparsity =
        .ok (t.reshape (fun i => if i ∈ S then t.entries i else 0)) ∧
      (∀ i ∈ S, ∀ j ∉ S, |t.entries j| ≤ |t.entries i|) ∧
      (∀ w : Fin t.numel → K, (support w).card ≤ S.card →
        sqDist (fun i => if i ∈ S then t.entries i else 0) t.entries ≤ sqDist w t.entries) ∧
      ∀ topk' : TopIndices K,
        sparsifyTensor topk' (t.reshape (fun i => if i ∈ S then t.entries i else 0)) sparsity =
          .ok (t.reshape (fun i => if i ∈ S then t.entries i else 0)) := by
  have hk := keptCount_le hn hle
  let S := topk.pick (fun i : Fin t.numel => |t.entries i|) (keptCount t.numel sparsity)
  have hcard : S.card = keptCount t.numel sparsity := topk.card_pick _ hk
  have hdom : Dominates S (fun i => |t.entries i|) := topk.dominates_pick _ hk
  refine ⟨S, hcard, sparsifyTensor_eq topk hk hn, hdom, ?_, ?_⟩
  · intro w hw
    exact sqDist_keep_le hdom hw
  · intro topk'
    let cut := t.reshape (keep S t.entries)
    have hagain := sparsifyTensor_eq topk' (t := cut) hk hn
    have hsame := keep_keep (topk'.dominates_pick (fun i => |keep S t.entries i|) hk)
      (hcard.trans_le (topk'.card_pick _ hk).ge)
    exact hagain.trans (congrArg (fun e => Except.ok (t.reshape e)) hsame)

def earliestIndices (K : Type*) [LinearOrder K] : TopIndices K where
  pick a k := ((Ranking.ranking a Finset.univ).take k).toFinset
  card_pick {n} a k hk := by
    have hnodup : ((Ranking.ranking a Finset.univ).take k).Nodup :=
      (Finset.sort_nodup _ _).sublist (List.take_sublist k _)
    rw [List.toFinset_card_of_nodup hnodup, List.length_take, Ranking.ranking, Finset.length_sort,
      Finset.card_univ, Fintype.card_fin]
    exact min_eq_left hk
  dominates_pick {n} a k _ := by
    intro i hi j hj
    rw [List.mem_toFinset] at hi hj
    have hrest : j ∈ (Ranking.ranking a Finset.univ).drop k := by
      have hmem : j ∈ Ranking.ranking a Finset.univ := (Finset.mem_sort _).2 (Finset.mem_univ j)
      rw [← List.take_append_drop k (Ranking.ranking a Finset.univ), List.mem_append] at hmem
      exact hmem.resolve_left hj
    have hbefore : Ranking.Before a i j :=
      (Finset.pairwise_sort _ _).rel_of_mem_take_of_mem_drop hi hrest
    rcases hbefore with hlt | ⟨heq, _⟩
    · exact hlt.le
    · exact heq.ge

def threeEntries : Tensor ℚ := ⟨[3], ![1, -2, 2]⟩

theorem sparsifyTensor_best_sample :
    ∃ S : Finset (Fin threeEntries.numel), S.card = max 1 ⌊threeEntries.numel * (1 / 2 : ℚ)⌋₊ ∧
      sparsifyTensor (earliestIndices ℚ) threeEntries (1 / 2) =
        .ok (threeEntries.reshape (fun i => if i ∈ S then threeEntries.entries i else 0)) := by
  obtain ⟨S, hcard, hcut, -⟩ :=
    sparsifyTensor_best (earliestIndices ℚ) threeEntries (1 / 2) (by decide) (by norm_num)
  exact ⟨S, hcard, hcut⟩

end Sparsify

end Slakshna.Engine

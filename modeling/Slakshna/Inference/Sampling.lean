import Mathlib.Data.List.MinMax
import Mathlib.Data.List.FinRange
import Mathlib.Data.List.Sort
import Mathlib.Order.WithBot
import Mathlib.Algebra.BigOperators.Field
import Mathlib.Tactic.Linarith
import Slakshna.Lib.Fallible
import Slakshna.Lib.PartialSum
import Slakshna.Lib.Rejection

/-! The sampling functions of the inference engine, in exact arithmetic. A logit that was set to
minus infinity is `⊥`. -/
namespace Slakshna.Sampling
open Rejection PartialSum
variable {vocab : ℕ} {K : Type}

abbrev Token (vocab : ℕ) := Fin vocab

/-- What a sort does: tokens of equal logits may come in any order. -/
structure DescendingSort (vocab : ℕ) (K : Type) [LinearOrder K] where
  order : (Token vocab → WithBot K) → List (Token vocab)
  perm : ∀ l, (order l).Perm (List.finRange vocab)
  sorted : ∀ l, (order l).Pairwise (fun u v => l v ≤ l u)

def stableSort [LinearOrder K] : DescendingSort vocab K where
  order := fun l => (List.finRange vocab).insertionSort (fun u v => l v ≤ l u)
  perm := fun _ => List.perm_insertionSort _ _
  sorted := fun _ => List.pairwise_insertionSort _ _

structure Torch (vocab : ℕ) (K : Type) [Field K] [LinearOrder K] where
  exp : K → K
  exp_pos : ∀ x, 0 < exp x
  sort : DescendingSort vocab K

structure SampleConfig (K : Type) where
  temperature : K
  topK : ℤ
  topP : K

def firstPositive [NeZero vocab] [Zero K] [LT K] [DecidableLT K] :
    Multinomial (Token vocab) K where
  draw := fun w => ((List.finRange vocab).find? (fun v => decide (0 < w v))).getD 0
  draw_pos := by
    intro w hw
    obtain ⟨v, hv⟩ := hw
    cases hfind : (List.finRange vocab).find? (fun v => decide (0 < w v)) with
    | none =>
      have hnot := List.find?_eq_none.1 hfind v (List.mem_finRange v)
      exact absurd (decide_eq_true hv) hnot
    | some u =>
      have hu : decide (0 < w u) = true := List.find?_some (p := fun v => decide (0 < w v)) hfind
      exact of_decide_eq_true hu

inductive SampleError (K : Type) where
  | temperature (t : K)
  | multinomial
  | stack
  | index
  deriving DecidableEq

def greedySample [NeZero vocab] [LinearOrder K] (logits : Token vocab → K) : Token vocab :=
  ((List.finRange vocab).argmax logits).getD 0

theorem greedySample_eq [NeZero vocab] [LinearOrder K] {logits : Token vocab → K} {m : Token vocab}
    (hm : ∀ v, v ≠ m → logits v < logits m) : greedySample logits = m := by
  have hmem := List.mem_finRange m
  cases hargmax : (List.finRange vocab).argmax logits with
  | none =>
    rw [List.argmax_eq_none] at hargmax
    rw [hargmax] at hmem
    cases hmem
  | some v =>
    have hle : logits m ≤ logits v := List.le_of_mem_argmax hmem hargmax
    rw [greedySample, hargmax]
    by_contra hne
    exact absurd (hm v hne) (not_lt.2 hle)

variable [Field K] [LinearOrder K]

def clampMin : K := 1 / 10 ^ 9

def temperatureScale {batch : ℕ} (logits : Fin batch → Token vocab → K) (temperature : K) :
    Except (SampleError K) (Fin batch → Token vocab → K) :=
  if temperature ≤ 0 then .error (.temperature temperature)
  else .ok (if |temperature - 1| < 1 / 10 ^ 6 then logits
    else fun b v => logits b v / temperature)

def topKFilter (torch : Torch vocab K) (logits : Token vocab → WithBot K) (topK : ℤ) :
    Token vocab → WithBot K :=
  if topK ≤ 0 then logits
  else
    let k := min topK.toNat vocab
    let threshold := ((torch.sort.order logits)[k - 1]?.map logits).getD ⊥
    fun v => if logits v < threshold then ⊥ else logits v

def expBot (exp : K → K) : WithBot K → K
  | ⊥ => 0
  | (x : K) => exp x

def softmax (torch : Torch vocab K) (logits : Token vocab → WithBot K) (v : Token vocab) : K :=
  expBot torch.exp (logits v) / ∑ u, expBot torch.exp (logits u)

def topPFilter (torch : Torch vocab K) (logits : Token vocab → WithBot K) (topP : K) :
    Token vocab → WithBot K :=
  if topP ≥ 1 then logits
  else
    let sorted := torch.sort.order logits
    let cumulative := fun i => ((sorted.take (i + 1)).map (softmax torch logits)).sum
    fun v =>
      if cumulative (sorted.idxOf v) - softmax torch logits v > topP then ⊥ else logits v

def filters (torch : Torch vocab K) (cfg : SampleConfig K) (logits : Token vocab → WithBot K) :
    Token vocab → WithBot K :=
  let logits := if cfg.topK > 0 then topKFilter torch logits cfg.topK else logits
  if cfg.topP < 1 then topPFilter torch logits cfg.topP else logits

section Batch
variable {batch : ℕ}

/-- Where every logit was filtered out, torch has NaN and this has zeros; a draw fails from both. -/
def logitsToProbs (torch : Torch vocab K) (cfg : SampleConfig K)
    (logits : Fin batch → Token vocab → K) :
    Except (SampleError K) (Fin batch → Token vocab → K) := do
  let logits ← if cfg.temperature ≠ 1 then temperatureScale logits cfg.temperature else pure logits
  return fun b => softmax torch (filters torch cfg (fun v => logits b v))

/-- `torch.multinomial` over the rows of a batch: a row without weight is an error. -/
def multinomial (pick : Fin batch → Multinomial (Token vocab) K)
    (weights : Fin batch → Token vocab → K) : Except (SampleError K) (Fin batch → Token vocab) :=
  if ∀ b, ∃ v, 0 < weights b v then .ok (fun b => (pick b).draw (weights b))
  else .error .multinomial

def renormalised (probs : Token vocab → K) (v : Token vocab) : K :=
  max (probs v) 0 / max (∑ u, max (probs u) 0) clampMin

def sampleFromLogits (torch : Torch vocab K) (cfg : SampleConfig K)
    (pick : Fin batch → Multinomial (Token vocab) K) (logits : Fin batch → Token vocab → K) :
    Except (SampleError K) (Fin batch → Token vocab) := do
  let logits ← temperatureScale logits cfg.temperature
  multinomial pick (fun b => renormalised (softmax torch (filters torch cfg (fun v => logits b v))))

end Batch

def scaled (cfg : SampleConfig K) (logits : Token vocab → K) : Token vocab → K :=
  if |cfg.temperature - 1| < 1 / 10 ^ 6 then logits else fun v => logits v / cfg.temperature

def probs (torch : Torch vocab K) (cfg : SampleConfig K) (logits : Token vocab → K) :
    Token vocab → K :=
  softmax torch (filters torch cfg (fun v => (scaled cfg logits v : K)))

variable [IsStrictOrderedRing K] {torch : Torch vocab K} {cfg : SampleConfig K}

section Batch
variable {batch : ℕ} {logits : Fin batch → Token vocab → K}

omit [IsStrictOrderedRing K] in
theorem temperatureScale_eq (ht : 0 < cfg.temperature) :
    temperatureScale logits cfg.temperature = .ok (fun b => scaled cfg (logits b)) := by
  rw [temperatureScale, if_neg (not_le.2 ht)]
  unfold scaled
  split <;> rfl

theorem logitsToProbs_eq (ht : 0 < cfg.temperature) :
    logitsToProbs torch cfg logits = .ok (fun b => probs torch cfg (logits b)) := by
  by_cases hone : cfg.temperature = 1
  · simp [logitsToProbs, probs, scaled, hone, pure, Except.pure, bind, Except.bind]
  · rw [logitsToProbs, if_pos hone, temperatureScale_eq ht]
    rfl

theorem logitsToProbs_error (ht : ¬0 < cfg.temperature) :
    logitsToProbs torch cfg logits = .error (.temperature cfg.temperature) := by
  have hone : cfg.temperature ≠ 1 := by
    intro hone
    rw [hone] at ht
    exact ht one_pos
  rw [logitsToProbs, if_pos hone, temperatureScale, if_pos (not_lt.1 ht)]
  rfl

omit [IsStrictOrderedRing K] in
theorem sampleFromLogits_eq (ht : 0 < cfg.temperature)
    (pick : Fin batch → Multinomial (Token vocab) K) : sampleFromLogits torch cfg pick logits =
      multinomial pick (fun b => renormalised (probs torch cfg (logits b))) := by
  rw [sampleFromLogits, temperatureScale_eq ht]
  rfl

theorem clampMin_pos : (0 : K) < clampMin := by
  rw [clampMin]
  positivity

theorem clampMin_le_one : (clampMin : K) ≤ 1 := by
  rw [clampMin, div_le_one (by positivity)]
  exact one_le_pow₀ (by norm_num)

theorem renormalised_pos {p : Token vocab → K} {v : Token vocab} :
    0 < renormalised p v ↔ 0 < p v := by
  rw [renormalised, div_pos_iff_of_pos_right (lt_max_of_lt_right clampMin_pos), lt_max_iff]
  simp

omit [IsStrictOrderedRing K] in
theorem multinomial_eq_ok_iff {pick : Fin batch → Multinomial (Token vocab) K}
    {weights : Fin batch → Token vocab → K} {tok : Fin batch → Token vocab} :
    multinomial pick weights = .ok tok ↔
      (∀ b, ∃ v, 0 < weights b v) ∧ tok = fun b => (pick b).draw (weights b) := by
  rw [multinomial]
  split
  · next h => simp [h, eq_comm]
  · next h => simp [h]

omit [IsStrictOrderedRing K] in
theorem multinomial_ok {pick : Fin batch → Multinomial (Token vocab) K}
    {weights : Fin batch → Token vocab → K} {tok : Fin batch → Token vocab}
    (h : multinomial pick weights = .ok tok) (b : Fin batch) : 0 < weights b (tok b) := by
  obtain ⟨hpos, rfl⟩ := multinomial_eq_ok_iff.1 h
  exact (pick b).draw_pos _ (hpos b)

theorem sampleFromLogits_eq_ok_iff (ht : 0 < cfg.temperature)
    {pick : Fin batch → Multinomial (Token vocab) K} {tok : Fin batch → Token vocab} :
    sampleFromLogits torch cfg pick logits = .ok tok ↔
      (∀ b, ∃ v, 0 < probs torch cfg (logits b) v) ∧
        tok = fun b => (pick b).draw (renormalised (probs torch cfg (logits b))) := by
  rw [sampleFromLogits_eq ht, multinomial_eq_ok_iff]
  simp only [renormalised_pos]

end Batch

theorem scaled_lt_iff (ht : 0 < cfg.temperature) {logits : Token vocab → K} {u v : Token vocab} :
    scaled cfg logits u < scaled cfg logits v ↔ logits u < logits v := by
  unfold scaled
  split
  · exact Iff.rfl
  · exact div_lt_div_iff_of_pos_right ht

section Softmax
variable {l : Token vocab → WithBot K}

omit [IsStrictOrderedRing K] in
theorem expBot_pos {x : WithBot K} : 0 < expBot torch.exp x ↔ x ≠ ⊥ := by
  cases x with
  | bot => simp [expBot]
  | coe x => simpa [expBot] using torch.exp_pos x

omit [IsStrictOrderedRing K] in
theorem expBot_nonneg (x : WithBot K) : 0 ≤ expBot torch.exp x := by
  cases x with
  | bot => exact le_refl _
  | coe x => exact (torch.exp_pos x).le

theorem softmax_nonneg (v : Token vocab) : 0 ≤ softmax torch l v :=
  div_nonneg (expBot_nonneg _) (Finset.sum_nonneg (fun _ _ => expBot_nonneg _))

theorem sum_expBot_pos (h : ∃ v, l v ≠ ⊥) : 0 < ∑ u, expBot torch.exp (l u) := by
  obtain ⟨v, hv⟩ := h
  exact Finset.sum_pos' (fun _ _ => expBot_nonneg _) ⟨v, Finset.mem_univ v, expBot_pos.2 hv⟩

theorem softmax_distribution (h : ∃ v, l v ≠ ⊥) : Distribution (softmax torch l) where
  nonneg := softmax_nonneg
  sum_eq_one := by
    simp only [softmax]
    rw [← Finset.sum_div, div_self (sum_expBot_pos h).ne']

theorem softmax_pos {v : Token vocab} : 0 < softmax torch l v ↔ l v ≠ ⊥ := by
  constructor
  · intro hpos hbot
    simp [softmax, hbot, expBot] at hpos
  · intro hv
    exact div_pos (expBot_pos.2 hv) (sum_expBot_pos ⟨v, hv⟩)

end Softmax

section Filters
variable {l : Token vocab → WithBot K}

omit [Field K] [IsStrictOrderedRing K] in
theorem DescendingSort.mem_order (sort : DescendingSort vocab K) (l : Token vocab → WithBot K)
    (v : Token vocab) : v ∈ sort.order l := by
  rw [(sort.perm l).mem_iff]
  exact List.mem_finRange v

omit [Field K] [IsStrictOrderedRing K] in
theorem DescendingSort.length_order (sort : DescendingSort vocab K)
    (l : Token vocab → WithBot K) : (sort.order l).length = vocab := by
  rw [(sort.perm l).length_eq, List.length_finRange]

omit [Field K] [IsStrictOrderedRing K] in
theorem DescendingSort.nodup_order (sort : DescendingSort vocab K) (l : Token vocab → WithBot K) :
    (sort.order l).Nodup := by
  rw [(sort.perm l).nodup_iff]
  exact List.nodup_finRange vocab

omit [Field K] [IsStrictOrderedRing K] in
theorem DescendingSort.le_of_idxOf_le (sort : DescendingSort vocab K) {l : Token vocab → WithBot K}
    {u v : Token vocab} (h : (sort.order l).idxOf u ≤ (sort.order l).idxOf v) : l v ≤ l u := by
  have hv := List.idxOf_lt_length_of_mem (sort.mem_order l v)
  cases h.eq_or_lt with
  | inl heq => rw [(List.idxOf_inj (sort.mem_order l u)).1 heq]
  | inr hless =>
    have hsorted := List.pairwise_iff_getElem.1 (sort.sorted l) _ _ (hless.trans hv) hv hless
    rwa [List.getElem_idxOf, List.getElem_idxOf] at hsorted

omit [Field K] [IsStrictOrderedRing K] in
theorem DescendingSort.le_head (sort : DescendingSort vocab K) {u : Token vocab}
    {rest : List (Token vocab)} (h : sort.order l = u :: rest) (v : Token vocab) : l v ≤ l u := by
  have hsorted := sort.sorted l
  have hmem := sort.mem_order l v
  rw [h] at hsorted hmem
  cases List.mem_cons.1 hmem with
  | inl heq => rw [heq]
  | inr hrest => exact (List.pairwise_cons.1 hsorted).1 v hrest

omit [IsStrictOrderedRing K] in
theorem topKFilter_keeps [NeZero vocab] (topK : ℤ) (h : ∀ v, l v ≠ ⊥) :
    ∃ v, topKFilter torch l topK v ≠ ⊥ := by
  by_cases hk : topK ≤ 0
  · exact ⟨0, by simpa [topKFilter, hk] using h 0⟩
  · have hvocab := NeZero.pos vocab
    have hindex : min topK.toNat vocab - 1 < (torch.sort.order l).length := by
      rw [torch.sort.length_order]
      omega
    refine ⟨(torch.sort.order l)[min topK.toNat vocab - 1], ?_⟩
    simp [topKFilter, hk, List.getElem?_eq_getElem hindex, h]

omit [IsStrictOrderedRing K] in
theorem topPFilter_keeps {topP : K} (hp : 0 ≤ topP) (h : ∃ v, l v ≠ ⊥) :
    ∃ v, topPFilter torch l topP v ≠ ⊥ := by
  obtain ⟨v, hv⟩ := h
  by_cases hone : topP ≥ 1
  · exact ⟨v, by rwa [topPFilter, if_pos hone]⟩
  · cases horder : torch.sort.order l with
    | nil =>
      have hmem := torch.sort.mem_order l v
      rw [horder] at hmem
      cases hmem
    | cons u rest =>
      -- the first token in the order is kept: nothing comes before it
      have hu : l u ≠ ⊥ := by
        intro hbot
        have hle := torch.sort.le_head horder v
        rw [hbot, le_bot_iff] at hle
        exact hv hle
      refine ⟨u, ?_⟩
      simp [topPFilter, hone, horder, hp, hu]

omit [IsStrictOrderedRing K] in
theorem topPFilter_bot {topP : K} {v : Token vocab} (h : l v = ⊥) :
    topPFilter torch l topP v = ⊥ := by
  by_cases hone : topP ≥ 1
  · rw [topPFilter, if_pos hone, h]
  · simp [topPFilter, hone, h]

omit [IsStrictOrderedRing K] in
theorem topPFilter_eq {topP : K} (hp : topP < 1) (v : Token vocab) :
    topPFilter torch l topP v = if partialSum (softmax torch l) (torch.sort.order l)
      ((torch.sort.order l).idxOf v) ≤ topP then l v else ⊥ := by
  have hindex : (torch.sort.order l).idxOf v < (torch.sort.order l).length :=
    List.idxOf_lt_length_of_mem (torch.sort.mem_order l v)
  have hcumulative : (((torch.sort.order l).take ((torch.sort.order l).idxOf v + 1)).map
      (softmax torch l)).sum = partialSum (softmax torch l) (torch.sort.order l)
      ((torch.sort.order l).idxOf v) + softmax torch l v := by
    have hsucc := partialSum_succ (w := softmax torch l) hindex
    rwa [List.getElem_idxOf] at hsucc
  simp only [topPFilter, if_neg (not_le.2 hp), hcumulative, add_sub_cancel_right]
  split
  · next hless => rw [if_neg (not_le.2 hless)]
  · next hle => rw [if_pos (not_lt.1 hle)]

variable (torch) in
omit [IsStrictOrderedRing K] in
theorem topKFilter_one {m v : Token vocab} (hm : ∀ v, v ≠ m → l v < l m) (hne : v ≠ m) :
    topKFilter torch l 1 v = ⊥ := by
  have hvocab : 0 < vocab := m.pos
  cases horder : torch.sort.order l with
  | nil =>
    have hmem := torch.sort.mem_order l m
    rw [horder] at hmem
    cases hmem
  | cons u rest =>
    have hless : l v < l u := (hm v hne).trans_le (torch.sort.le_head horder m)
    simp [topKFilter, Nat.min_eq_left hvocab, horder, hless]

variable (torch l) in
theorem partialSum_softmax_mono : Monotone (partialSum (softmax torch l) (torch.sort.order l)) :=
  partialSum_mono (fun v _ => softmax_nonneg v)

theorem topPFilter_drops {topP : K} (hp : topP < 0) (v : Token vocab) :
    topPFilter torch l topP v = ⊥ := by
  have hbefore := partialSum_softmax_mono torch l (Nat.zero_le ((torch.sort.order l).idxOf v))
  rw [partialSum_zero] at hbefore
  rw [topPFilter_eq (hp.trans one_pos)]
  exact if_neg (not_le.2 (hp.trans_le hbefore))

end Filters

theorem probs_distribution [NeZero vocab] (hp : 0 ≤ cfg.topP) (logits : Token vocab → K) :
    Distribution (probs torch cfg logits) := by
  apply softmax_distribution
  have hkept : ∃ v, (if cfg.topK > 0 then
      topKFilter torch (fun v => ((scaled cfg logits v : K) : WithBot K)) cfg.topK
      else fun v => ((scaled cfg logits v : K) : WithBot K)) v ≠ ⊥ := by
    split
    · exact topKFilter_keeps _ (fun _ => WithBot.coe_ne_bot)
    · exact ⟨0, WithBot.coe_ne_bot⟩
  rw [filters]
  split
  · exact topPFilter_keeps hp hkept
  · exact hkept

theorem probs_zero (hp : cfg.topP < 0) (v : Token vocab) : probs torch cfg logits v = 0 := by
  simp [probs, filters, hp.trans one_pos, softmax, topPFilter_drops hp, expBot]

theorem probs_topK_one (hk : cfg.topK = 1) (ht : 0 < cfg.temperature) {logits : Token vocab → K}
    {m v : Token vocab} (hm : ∀ v, v ≠ m → logits v < logits m) (hv : 0 < probs torch cfg logits v) :
    v = m := by
  have hscaled : ∀ v, v ≠ m → ((scaled cfg logits v : K) : WithBot K) < (scaled cfg logits m : K) := by
    intro v hv
    exact WithBot.coe_lt_coe.2 ((scaled_lt_iff ht).2 (hm v hv))
  by_contra hne
  have htop := topKFilter_one torch hscaled hne
  apply softmax_pos.1 hv
  rw [filters, hk]
  simp only [if_pos Int.one_pos]
  split
  · exact topPFilter_bot htop
  · exact htop

end Slakshna.Sampling

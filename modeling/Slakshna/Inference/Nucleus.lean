import Mathlib.Analysis.SpecialFunctions.Exp
import Slakshna.Inference.Sampling

/-! The nucleus that `top_p_filter` keeps. It compares what weighs in before a token strictly with
`top_p`, so a prefix that weighs exactly `top_p` takes one token more with it. -/
namespace Slakshna.Sampling
open PartialSum
variable {vocab : ℕ} {K : Type} [Field K] [LinearOrder K]

def KeepsNucleus (torch : Torch vocab K) (l : Token vocab → WithBot K) (topP : K) : Prop :=
  ∃ n, Reaches (softmax torch l) (torch.sort.order l) topP n ∧
    ∀ v, topPFilter torch l topP v = if v ∈ (torch.sort.order l).take n then l v else ⊥

variable [IsStrictOrderedRing K] {torch : Torch vocab K} {l : Token vocab → WithBot K} {topP : K}

omit [IsStrictOrderedRing K] in
theorem sum_order (w : Token vocab → K) : ((torch.sort.order l).map w).sum = ∑ v, w v := by
  rw [((torch.sort.perm l).map w).sum_eq, ← List.ofFn_eq_map, List.sum_ofFn]

variable (torch) in
theorem sum_order_softmax (h : ∃ v, l v ≠ ⊥) :
    ((torch.sort.order l).map (softmax torch l)).sum = 1 := by
  rw [sum_order, (softmax_distribution h).sum_eq_one]

theorem ne_bot_behind {n : ℕ} (h : ∃ v, l v ≠ ⊥)
    (hn : partialSum (softmax torch l) (torch.sort.order l) n ≠ 1) :
    ∃ v, (torch.sort.order l).idxOf v = n ∧ l v ≠ ⊥ := by
  rw [← sum_order_softmax torch h] at hn
  obtain ⟨u, hu, hweight⟩ := exists_ne_zero hn
  have hlength : n < (torch.sort.order l).length := by
    by_contra hnot
    rw [List.drop_of_length_le (not_lt.1 hnot)] at hu
    cases hu
  obtain ⟨i, hi, rfl⟩ := List.mem_drop_iff_getElem.1 hu
  have hnodup := torch.sort.nodup_order l
  refine ⟨(torch.sort.order l)[n], hnodup.idxOf_getElem n hlength, ?_⟩
  intro hbot
  have hle : l (torch.sort.order l)[n + i] ≤ l (torch.sort.order l)[n] := by
    apply torch.sort.le_of_idxOf_le
    rw [hnodup.idxOf_getElem n hlength, hnodup.idxOf_getElem]
    exact Nat.le_add_right n i
  rw [hbot, le_bot_iff] at hle
  exact hweight (by simp [softmax, hle, expBot])

theorem keepsNucleus_of_no_hit (hone : topP < 1) (h : ∃ v, l v ≠ ⊥)
    (hhit : ∀ n, partialSum (softmax torch l) (torch.sort.order l) n ≠ topP) :
    KeepsNucleus torch l topP := by
  obtain ⟨n, -, hreach⟩ := exists_reaches ((sum_order_softmax torch h).symm ▸ hone.le)
  refine ⟨n, hreach, ?_⟩
  intro v
  have hkept : partialSum (softmax torch l) (torch.sort.order l) ((torch.sort.order l).idxOf v) ≤
      topP ↔ v ∈ (torch.sort.order l).take n := by
    rw [List.mem_take_iff_idxOf_lt (torch.sort.mem_order l v),
      ← hreach.lt_iff (fun u _ => softmax_nonneg u)]
    exact ⟨fun hle => lt_of_le_of_ne hle (hhit _), le_of_lt⟩
  rw [topPFilter_eq hone]
  simp only [hkept]

theorem no_hit_of_keepsNucleus (hone : topP < 1) (h : ∃ v, l v ≠ ⊥)
    (hkeeps : KeepsNucleus torch l topP) (m : ℕ) :
    partialSum (softmax torch l) (torch.sort.order l) m ≠ topP := by
  intro hit
  obtain ⟨n, hreach, hfilter⟩ := hkeeps
  have hn := hreach.eq_of_hit (fun u _ => softmax_nonneg u) hit
  obtain ⟨v, hv, hbot⟩ := ne_bot_behind h (hn.trans_ne hone.ne)
  have hkept : topPFilter torch l topP v = l v := by
    rw [topPFilter_eq hone, hv, if_pos hn.le]
  have hout : v ∉ (torch.sort.order l).take n := by
    rw [List.mem_take_iff_idxOf_lt (torch.sort.mem_order l v), hv]
    exact lt_irrefl n
  rw [hfilter v, if_neg hout] at hkept
  exact hbot hkept.symm

/-- Exactly the nucleus is kept if some logit is finite and no prefix weighs `top_p` exactly. -/
theorem topPFilter_nucleus_iff (torch : Torch vocab K) (l : Token vocab → WithBot K) {topP : K}
    (hpos : 0 < topP) (hone : topP < 1) : KeepsNucleus torch l topP ↔
      (∃ v, l v ≠ ⊥) ∧ ∀ n, partialSum (softmax torch l) (torch.sort.order l) n ≠ topP := by
  constructor
  · intro hkeeps
    have hfinite : ∃ v, l v ≠ ⊥ := by
      by_contra hnone
      have hbot : ∀ v, l v = ⊥ := fun v => by_contra (fun hv => hnone ⟨v, hv⟩)
      obtain ⟨n, hreach, -⟩ := hkeeps
      have hweight : softmax torch l = fun _ => 0 := by
        funext v
        simp [softmax, hbot, expBot]
      have hzero : partialSum (softmax torch l) (torch.sort.order l) n = 0 := by
        simp [partialSum, hweight]
      exact absurd hreach.le (not_le.2 (hzero.trans_lt hpos))
    exact ⟨hfinite, no_hit_of_keepsNucleus hone hfinite hkeeps⟩
  · rintro ⟨hfinite, hhit⟩
    exact keepsNucleus_of_no_hit hone hfinite hhit

section Real

noncomputable def expTorch (vocab : ℕ) : Torch vocab ℝ := ⟨Real.exp, Real.exp_pos, stableSort⟩

/-- Two tokens of the same logit. -/
def twoEven (_ : Token 2) : WithBot ℝ := (0 : ℝ)

theorem softmax_twoEven : softmax (expTorch 2) twoEven = fun _ => 1 / 2 := by
  funext v
  simp [softmax, twoEven, expBot, expTorch]

theorem partialSum_twoEven (n : ℕ) : partialSum (softmax (expTorch 2) twoEven)
    ((expTorch 2).sort.order twoEven) n = (min n 2 : ℕ) / 2 := by
  rw [partialSum, softmax_twoEven, List.map_const', List.sum_replicate, List.length_take,
    (expTorch 2).sort.length_order, nsmul_eq_mul, mul_one_div]

/-- The first of the two weighs one half, and both are kept. -/
theorem twoEven_not_nucleus : ¬KeepsNucleus (expTorch 2) twoEven (1 / 2) := by
  intro hkeeps
  have hfinite : ∃ v, twoEven v ≠ ⊥ := ⟨0, WithBot.coe_ne_bot⟩
  apply no_hit_of_keepsNucleus (by norm_num) hfinite hkeeps 1
  rw [partialSum_twoEven]
  norm_num

theorem twoEven_nucleus : KeepsNucleus (expTorch 2) twoEven (3 / 4) := by
  apply (topPFilter_nucleus_iff (expTorch 2) twoEven (by norm_num) (by norm_num)).2
  refine ⟨⟨0, WithBot.coe_ne_bot⟩, ?_⟩
  intro n hn
  rw [partialSum_twoEven, div_eq_div_iff two_ne_zero four_ne_zero] at hn
  -- one half of a whole number is not three quarters
  have hcast : min n 2 * 4 = 3 * 2 := by exact_mod_cast hn
  omega

end Real

end Slakshna.Sampling

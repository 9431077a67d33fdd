import Slakshna.Inference.Lossless

/-! Rejection sampling of a whole batch: a row that rejects makes every row draw again, also one
whose two distributions leave nothing to draw from. -/
namespace Slakshna.Speculative
open Fallible Rejection Sampling
variable {batch vocab : ℕ} {K : Type} [Field K] [LinearOrder K]

abbrev Position (batch vocab : ℕ) (K : Type) := Draft batch vocab K × Logits batch vocab K

structure Proper (d : Position batch vocab K) : Prop where
  draft : ∀ b, Distribution (d.1.probs b)
  target : ∀ b, Distribution (d.2 b)
  proposed : ∀ b, 0 < d.1.probs b (d.1.token b)

def Rejectable (d : Position batch vocab K) (b : Fin batch) : Prop :=
  d.2 b (d.1.token b) < max (d.1.probs b (d.1.token b)) clampMin

def Drawable : List (Position batch vocab K) → Prop
  | [] => True
  | d :: rest => ((∃ b, Rejectable d b) → ∀ b, d.2 b ≠ d.1.probs b) ∧
      ((∀ b, 0 < d.2 b (d.1.token b)) → Drawable rest)

variable [IsStrictOrderedRing K] {torch : Torch vocab K} {cfg : SampleConfig K}

omit [IsStrictOrderedRing K] in
theorem multinomial_ne_error {pick : Fin batch → Multinomial (Token vocab) K}
    {weights : Fin batch → Token vocab → K} :
    multinomial pick weights ≠ .error .multinomial ↔ ∀ b, ∃ v, 0 < weights b v := by
  rw [multinomial]
  split
  · next h => exact iff_of_true (fun hok => by cases hok) h
  · next h => exact iff_of_false (fun hne => hne rfl) h

theorem resampled_ne_error {d : Position batch vocab K} (hd : Proper d)
    {resample : Fin batch → Multinomial (Token vocab) K} :
    multinomial resample (fun b => correctedProbs (d.2 b) (d.1.probs b)) ≠ .error .multinomial ↔
      ∀ b, d.2 b ≠ d.1.probs b := by
  rw [multinomial_ne_error]
  refine forall_congr' (fun b => ?_)
  rw [← exists_lt_iff_ne (hd.target b) (hd.draft b)]
  exact exists_congr (fun v => correctedProbs_pos)

theorem bonus_ne_error {bonusLogits : Logits batch vocab K}
    (hbonus : ∀ b, Distribution (probs torch cfg (bonusLogits b)))
    (next : Fin batch → Multinomial (Token vocab) K) :
    sampleFromLogits torch cfg next bonusLogits ≠ .error .multinomial := by
  by_cases ht : 0 < cfg.temperature
  · rw [sampleFromLogits_eq ht, multinomial_ne_error]
    intro b
    obtain ⟨v, hv⟩ := (hbonus b).exists_pos
    exact ⟨v, renormalised_pos.2 hv⟩
  · rw [sampleFromLogits, temperatureScale, if_pos (not_lt.1 ht)]
    intro h
    cases h

section Step
variable {resample next : Fin batch → Multinomial (Token vocab) K} {rand : ℕ → Fin batch → Uniform K}
  {d : Position batch vocab K} {rest : List (Position batch vocab K)}
  {bonusLogits : Logits batch vocab K}

omit [IsStrictOrderedRing K] in
theorem accepted_ne_error
    (hall : ∀ b, accept (rand 0 b) (d.2 b) (d.1.probs b) (d.1.token b) = true) :
    rejectionSample torch cfg resample next rand (d :: rest) bonusLogits ≠ .error .multinomial ↔
      rejectionSample torch cfg resample next (fun i => rand (i + 1)) rest bonusLogits ≠
        .error .multinomial := by
  rw [rejectionSample, if_pos hall, Ne, bind_pure_error]

theorem rejected_ne_error (hd : Proper d)
    (hsome : ¬∀ b, accept (rand 0 b) (d.2 b) (d.1.probs b) (d.1.token b) = true) :
    rejectionSample torch cfg resample next rand (d :: rest) bonusLogits ≠ .error .multinomial ↔
      ∀ b, d.2 b ≠ d.1.probs b := by
  rw [rejectionSample, if_neg hsome, ← resampled_ne_error hd, Ne, bind_pure_error]

end Step

def rejecting (p q : K) : Uniform K :=
  if h : 0 ≤ acceptProb clampMin p q ∧ acceptProb clampMin p q < 1
  then ⟨acceptProb clampMin p q, h.1, h.2⟩ else zeroRand

theorem not_accept_rejecting {p q : Token vocab → K} {v : Token vocab} (hp : 0 ≤ p v)
    (h : p v < max (q v) clampMin) : ¬accept (rejecting (p v) (q v)) p q v = true := by
  have hnonneg := acceptProb_nonneg clampMin_pos (p v) (q v)
  have hless := (acceptProb_lt_one clampMin_pos hp).2 h
  rw [accept, rejecting, dif_pos ⟨hnonneg, hless⟩, decide_eq_true_iff]
  exact lt_irrefl _

/-- Whatever is drawn, no row without weight is drawn from, exactly if every rejection that can come
about finds two different distributions in each row. -/
theorem rejectionSample_never_fails_iff [NeZero vocab] (torch : Torch vocab K)
    (cfg : SampleConfig K) (positions : List (Position batch vocab K))
    (bonusLogits : Logits batch vocab K) (hproper : ∀ d ∈ positions, Proper d)
    (hbonus : ∀ b, Distribution (probs torch cfg (bonusLogits b))) :
    (∀ rand resample next, rejectionSample torch cfg resample next rand positions bonusLogits ≠
      .error .multinomial) ↔ Drawable positions := by
  induction positions with
  | nil =>
    refine iff_of_true (fun rand resample next => ?_) trivial
    rw [rejectionSample, Ne, bind_pure_error]
    exact bonus_ne_error hbonus next
  | cons d rest ih =>
    have hd : Proper d := hproper d List.mem_cons_self
    have hrest := ih (fun d' hd' => hproper d' (List.mem_cons_of_mem d hd'))
    constructor
    · intro hnever
      constructor
      · intro hrejectable
        obtain ⟨b, hb⟩ := hrejectable
        apply (rejected_ne_error hd ?_).1 (hnever
          (fun _ b => rejecting (d.2 b (d.1.token b)) (d.1.probs b (d.1.token b)))
          (fun _ => firstPositive) (fun _ => firstPositive))
        intro hall
        exact not_accept_rejecting ((hd.target b).nonneg _) hb (hall b)
      · intro hpos
        refine hrest.1 (fun rand resample next => ?_)
        exact (accepted_ne_error (fun b => accept_zero rfl (hpos b))).1
          (hnever (prepend (fun _ => zeroRand) rand) resample next)
    · intro hdrawable rand resample next
      by_cases hall : ∀ b, accept (rand 0 b) (d.2 b) (d.1.probs b) (d.1.token b) = true
      · have hpos : ∀ b, 0 < d.2 b (d.1.token b) := fun b => pos_of_accept (hall b)
        exact (accepted_ne_error hall).2 (hrest.2 (hdrawable.2 hpos) _ resample next)
      · rw [rejected_ne_error hd hall]
        obtain ⟨b, hb⟩ := not_forall.1 hall
        exact hdrawable.1 ⟨b, lt_of_not_accept ((hd.target b).nonneg _) hb⟩

def mixedPosition : Position 2 2 ℚ :=
  (⟨fun _ => ⟨0, Nat.two_pos⟩, ![![1 / 2, 1 / 2], ![1, 0]]⟩, ![![1 / 2, 1 / 2], ![0, 1]])

theorem mixed_proper : ∀ d ∈ [mixedPosition], Proper d := by
  intro d hd
  rw [List.mem_singleton.1 hd]
  refine ⟨?_, ?_, by decide +kernel⟩
  · intro b
    exact ⟨by revert b; decide +kernel, by revert b; decide +kernel⟩
  · intro b
    exact ⟨by revert b; decide +kernel, by revert b; decide +kernel⟩

theorem flat_bonus (b : Fin 2) :
    Distribution (probs flatTorch ⟨1, 0, 1⟩ ((fun _ _ => 0 : Logits 2 2 ℚ) b)) :=
  probs_distribution zero_le_one _

/-- The second row rejects, and the first has nothing to draw from. -/
theorem mixed_fails : (∀ d ∈ [mixedPosition], Proper d) ∧
    rejectionSample flatTorch ⟨1, 0, 1⟩ (fun _ => firstPositive) (fun _ => firstPositive)
      (fun _ _ => zeroRand) [mixedPosition] (fun _ _ => 0) = .error .multinomial :=
  ⟨mixed_proper, by decide +kernel⟩

theorem mixed_never_fails_iff : (∀ rand resample next, rejectionSample flatTorch ⟨1, 0, 1⟩ resample
    next rand [mixedPosition] (fun _ _ => 0) ≠ .error .multinomial) ↔ Drawable [mixedPosition] :=
  rejectionSample_never_fails_iff flatTorch ⟨1, 0, 1⟩ [mixedPosition] (fun _ _ => 0) mixed_proper
    flat_bonus

end Slakshna.Speculative

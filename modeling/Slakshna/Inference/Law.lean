import Slakshna.Lib.Chance
import Slakshna.Inference.Lossless

/-! The law of what a step returns to a single prompt, where the draws are made by chance: each line of
the sampling code with its draws as they are distributed. -/
namespace Slakshna.Speculative
open Fallible MeasureTheory Rejection Sampling Chance
open scoped ENNReal
variable {vocab : ℕ}

abbrev Law (X : Type) := ExceptT (SampleError ℝ) PMF X

noncomputable def sampleLaw (torch : Torch vocab ℝ) (cfg : SampleConfig ℝ)
    (logits : Token vocab → ℝ) : Law (Token vocab) := do
  let logits ← given (temperatureScale (fun _ : Fin 1 => logits) cfg.temperature)
  let row := Fin.last 0
  draw .multinomial (renormalised (softmax torch (filters torch cfg (fun v => logits row v))))

noncomputable def acceptLaw (target draft : Token vocab → ℝ) (tok : Token vocab) : Law Bool :=
  ExceptT.lift (test (fun u => accept u target draft tok) (measurable_below _))

noncomputable def rejectionLaw (torch : Torch vocab ℝ) (cfg : SampleConfig ℝ) :
    List (Draft 1 vocab ℝ × Logits 1 vocab ℝ) → Logits 1 vocab ℝ → Law (NewTokens 1 vocab)
  | [], bonusLogits => do
    let bonusTok ← sampleLaw torch cfg (bonusLogits (Fin.last 0))
    return ⟨[], col bonusTok⟩
  | (d, target) :: rest, bonusLogits => do
    let row := Fin.last 0
    if ← acceptLaw (target row) (d.probs row) (d.token row) then
      let new ← rejectionLaw torch cfg rest bonusLogits
      return ⟨d.token :: new.drafts, new.last⟩
    else
      let resampled ← draw .multinomial (correctedProbs (target row) (d.probs row))
      return ⟨[], col resampled⟩

noncomputable def draftLaw : NextProbs vocab ℝ → ℕ → Law (List (Token vocab))
  | _, 0 => return []
  | q, n + 1 => do
    let tok ← draw .multinomial (q [])
    let rest ← draftLaw (q.after tok) n
    return tok :: rest

noncomputable def stepLaw (torch : Torch vocab ℝ) (cfg : SampleConfig ℝ) (p q : NextProbs vocab ℝ)
    (bonusLogits : List (Token vocab) → Token vocab → ℝ) (numDraftTokens : ℕ) :
    Law (NewTokens 1 vocab) := do
  let ds ← draftLaw q numDraftTokens
  rejectionLaw torch cfg (positionsOf p q ds) (fun _ => bonusLogits ds)

section Lines
variable {torch : Torch vocab ℝ} {cfg : SampleConfig ℝ} {p q : Token vocab → ℝ}

theorem expected_accept (tok : Token vocab) (g : Bool → ℝ≥0∞) :
    expected (acceptLaw p q tok) g =
      ENNReal.ofReal (acceptProb clampMin (p tok) (q tok)) * g true +
        ENNReal.ofReal (1 - acceptProb clampMin (p tok) (q tok)) * g false :=
  expected_below (acceptProb_nonneg clampMin_pos _ _) (acceptProb_le_one _ _ _) g

theorem expected_proposed (hq : Distribution q) (g : Token vocab → ℝ≥0∞) :
    expected (draw SampleError.multinomial q : Law (Token vocab)) g =
      ∑ v, ENNReal.ofReal (q v) * g v := by
  rw [expected_draw _ hq.nonneg]
  simp only [hq.sum_eq_one, div_one]

theorem expected_resampled (g : Token vocab → ℝ≥0∞) :
    expected (draw SampleError.multinomial (correctedProbs p q) : Law (Token vocab)) g =
      ∑ v, ENNReal.ofReal (corrected p q v / ∑ u, corrected p q u) * g v := by
  have hmax : 0 < max (∑ u, corrected p q u) clampMin := lt_max_of_lt_right clampMin_pos
  have hnonneg : ∀ v, 0 ≤ correctedProbs p q v :=
    fun v => div_nonneg (le_max_right _ _) hmax.le
  rw [expected_draw _ hnonneg]
  apply Finset.sum_congr rfl
  intro v _
  have hsum : ∑ u, correctedProbs p q u =
      (∑ u, corrected p q u) / max (∑ u, corrected p q u) clampMin := by
    simp only [correctedProbs, Finset.sum_div]
  rw [hsum, correctedProbs, div_div_div_cancel_right₀ hmax.ne']

theorem expected_sample {logits : Token vocab → ℝ} (hp : Distribution p)
    (hlogits : logitsToProbs torch cfg (fun _ : Fin 1 => logits) = .ok (fun _ => p))
    (g : Token vocab → ℝ≥0∞) :
    expected (sampleLaw torch cfg logits) g = ∑ v, ENNReal.ofReal (p v) * g v := by
  have ht : 0 < cfg.temperature := by
    by_contra hcold
    rw [logitsToProbs_error hcold] at hlogits
    cases hlogits
  have hp' : probs torch cfg logits = p := by
    rw [logitsToProbs_eq ht] at hlogits
    exact congrFun (Except.ok.inj hlogits) 0
  have hrenormalised : renormalised (probs torch cfg logits) = p := by
    funext v
    rw [hp', renormalised]
    simp only [max_eq_left (hp.nonneg _), hp.sum_eq_one, max_eq_left clampMin_le_one, div_one]
  rw [sampleLaw, temperatureScale_eq ht, expected_bind, expected_given]
  change expected (draw SampleError.multinomial (renormalised (probs torch cfg logits))) g = _
  rw [hrenormalised, expected_proposed hp]

end Lines

/-- The expected value over `n` draws of `rand` and one each for `resample` and `next`, all
independent. -/
noncomputable def average : ℕ → ((ℕ → Fin 1 → Uniform ℝ) → Uniform ℝ → Uniform ℝ → ℝ≥0∞) → ℝ≥0∞
  | 0, f => lintegral uniform (fun s => lintegral uniform (fun t => f (fun _ _ => zeroRand) s t))
  | n + 1, f => lintegral uniform (fun u => average n (fun rand => f (prepend (fun _ => u) rand)))

theorem average_resample (n : ℕ) (f : Uniform ℝ → ℝ≥0∞) :
    average n (fun _ s _ => f s) = lintegral uniform f := by
  induction n with
  | zero => simp [average]
  | succ n ih =>
    rw [average]
    simp [ih]

section Draws
variable [NeZero vocab] {torch : Torch vocab ℝ} {cfg : SampleConfig ℝ} {X : Type}

omit [NeZero vocab] in
theorem worth_bind_pure {Y : Type} (x : Except (SampleError ℝ) X) (f : X → Y) (g : Y → ℝ≥0∞) :
    worth g (x >>= fun a => pure (f a)) = worth (fun a => g (f a)) x := by
  cases x <;> rfl

theorem expected_multinomial (w : Token vocab → ℝ) (g : Column 1 vocab → ℝ≥0∞) :
    expected (draw SampleError.multinomial w : Law (Token vocab)) (fun v => g (col v)) =
      lintegral uniform (fun s => worth g (multinomial (fun _ : Fin 1 => inverse s) (fun _ => w))) := by
  rw [expected_draw_uniform]
  congr 1
  funext s
  by_cases h : ∃ v, 0 < w v
  · rw [if_pos h, multinomial_one h]
    rfl
  · rw [if_neg h, multinomial, if_neg (fun hall => h (hall 0))]
    rfl

theorem expected_sampleLaw (logits : Token vocab → ℝ) (g : Column 1 vocab → ℝ≥0∞) :
    expected (sampleLaw torch cfg logits) (fun v => g (col v)) =
      lintegral uniform (fun t =>
        worth g (sampleFromLogits torch cfg (fun _ : Fin 1 => inverse t) (fun _ => logits))) := by
  rw [sampleLaw, expected_bind, expected_given]
  by_cases ht : 0 < cfg.temperature
  · simp only [temperatureScale_eq ht, sampleFromLogits_eq ht]
    exact expected_multinomial _ g
  · have hscale : temperatureScale (fun _ : Fin 1 => logits) cfg.temperature =
        .error (.temperature cfg.temperature) := by
      rw [temperatureScale, if_pos (not_lt.1 ht)]
    have hfails : ∀ t, sampleFromLogits torch cfg (fun _ : Fin 1 => inverse t) (fun _ => logits) =
        .error (.temperature cfg.temperature) := by
      intro t
      rw [sampleFromLogits, hscale]
      rfl
    simp only [hscale, hfails, worth, lintegral_zero]

theorem expected_rejectionLaw (positions : List (Draft 1 vocab ℝ × Logits 1 vocab ℝ))
    (bonusLogits : Logits 1 vocab ℝ) (g : NewTokens 1 vocab → ℝ≥0∞) :
    expected (rejectionLaw torch cfg positions bonusLogits) g =
      average positions.length (fun rand s t => worth g (rejectionSample torch cfg
        (fun _ => inverse s) (fun _ => inverse t) rand positions bonusLogits)) := by
  induction positions generalizing g with
  | nil =>
    have hrow : bonusLogits = fun _ => bonusLogits 0 :=
      funext (fun b => congrArg bonusLogits (Subsingleton.elim b 0))
    rw [rejectionLaw, expected_bind]
    simp only [expected_pure, List.length_nil, average, rejectionSample, worth_bind_pure,
      lintegral_const, measure_univ, mul_one, Fin.last_zero]
    rw [hrow]
    exact expected_sampleLaw _ (fun c => g ⟨[], c⟩)
  | cons d rest ih =>
    obtain ⟨d, target⟩ := d
    have hweights : (fun b => correctedProbs (target b) (d.probs b)) =
        fun _ => correctedProbs (target 0) (d.probs 0) :=
      funext (fun b => congrArg (fun b => correctedProbs (target b) (d.probs b)) (Subsingleton.elim b 0))
    let kept := expected (rejectionLaw torch cfg rest bonusLogits)
      (fun new => g ⟨d.token :: new.drafts, new.last⟩)
    let resampled : Law (Token vocab) := draw .multinomial (correctedProbs (target 0) (d.probs 0))
    let replaced := expected resampled (fun v => g ⟨[], col v⟩)
    have hround : ∀ u, average rest.length (fun rand s t => worth g (rejectionSample torch cfg
        (fun _ => inverse s) (fun _ => inverse t) (prepend (fun _ => u) rand) ((d, target) :: rest)
        bonusLogits)) =
          if accept u (target 0) (d.probs 0) (d.token 0) = true then kept else replaced := by
      intro u
      simp only [rejectionSample_one, prepend_zero, prepend_succ, hweights]
      split
      · simp only [worth_bind_pure]
        exact (ih _).symm
      · simp only [worth_bind_pure]
        rw [average_resample]
        exact (expected_multinomial _ (fun c => g ⟨[], c⟩)).symm
    have hlaw : expected (rejectionLaw torch cfg ((d, target) :: rest) bonusLogits) g =
        expected (acceptLaw (target 0) (d.probs 0) (d.token 0)) (fun b =>
          if b = true then kept else replaced) := by
      rw [rejectionLaw, expected_bind, Fin.last_zero]
      congr 1
      funext b
      cases b with
      | true =>
        rw [if_pos rfl, if_pos rfl, expected_bind]
        simp only [expected_pure]
        rfl
      | false =>
        rw [if_neg (by decide), if_neg (by decide), expected_bind]
        simp only [expected_pure]
        rfl
    rw [hlaw, List.length_cons, average]
    simp only [hround]
    exact expected_test _ (fun b => if b = true then kept else replaced)

end Draws

/-- What the drafts are drawn from and what the target gives after them, with the logits that the
bonus token is drawn from. No token is proposed with less chance than the clamp. -/
structure Exact (torch : Torch vocab ℝ) (cfg : SampleConfig ℝ) (p q : NextProbs vocab ℝ)
    (bonusLogits : List (Token vocab) → Token vocab → ℝ) (numDraftTokens : ℕ) : Prop where
  target : ∀ ds, ds.length ≤ numDraftTokens → Distribution (p ds)
  draft : ∀ ds, ds.length < numDraftTokens → Distribution (q ds)
  proposed : ∀ ds v, ds.length < numDraftTokens → q ds v = 0 ∨ clampMin ≤ q ds v
  bonus : ∀ ds, ds.length = numDraftTokens →
    logitsToProbs torch cfg (fun _ : Fin 1 => bonusLogits ds) = .ok (fun _ => p ds)

section Steps
variable {torch : Torch vocab ℝ} {cfg : SampleConfig ℝ} {p q : NextProbs vocab ℝ}
  {bonusLogits : List (Token vocab) → Token vocab → ℝ} {n : ℕ}

theorem Exact.after (h : Exact torch cfg p q bonusLogits (n + 1)) (tok : Token vocab) :
    Exact torch cfg (p.after tok) (q.after tok) (fun ds => bonusLogits (tok :: ds)) n where
  target := fun ds hds => h.target (tok :: ds) (Nat.succ_le_succ hds)
  draft := fun ds hds => h.draft (tok :: ds) (Nat.succ_lt_succ hds)
  proposed := fun ds v hds => h.proposed (tok :: ds) v (Nat.succ_lt_succ hds)
  bonus := fun ds hds => h.bonus (tok :: ds) (congrArg Nat.succ hds)

theorem sum_weights {w : Token vocab → ℝ} (hw : Distribution w) : ∑ v, ENNReal.ofReal (w v) = 1 := by
  rw [← ENNReal.ofReal_sum_of_nonneg (fun v _ => hw.nonneg v), hw.sum_eq_one, ENNReal.ofReal_one]

theorem expected_draftLaw (hq : ∀ ds, ds.length < n → Distribution (q ds)) (c : ℝ≥0∞) :
    expected (draftLaw q n) (fun _ => c) = c := by
  induction n generalizing q with
  | zero => exact expected_pure _ []
  | succ n ih =>
    have hafter : ∀ tok, expected (draftLaw (q.after tok) n) (fun _ => c) = c :=
      fun tok => ih (fun ds hds => hq (tok :: ds) (Nat.succ_lt_succ hds))
    have hfirst := hq [] (Nat.succ_pos n)
    rw [draftLaw, expected_bind, expected_proposed hfirst]
    simp only [expected_bind, expected_pure, hafter]
    rw [← Finset.sum_mul, sum_weights hfirst, one_mul]

theorem expected_stepLaw_zero (h : Exact torch cfg p q bonusLogits 0)
    (g : NewTokens 1 vocab → ℝ≥0∞) :
    expected (stepLaw torch cfg p q bonusLogits 0) g =
      ∑ v, ENNReal.ofReal (p [] v) * g ⟨[], col v⟩ := by
  rw [stepLaw, draftLaw, expected_bind, expected_pure, positionsOf, rejectionLaw, expected_bind,
    expected_sample (h.target [] (le_refl 0)) (h.bonus [] rfl)]
  simp only [expected_pure]

theorem expected_stepLaw_succ (h : Exact torch cfg p q bonusLogits (n + 1))
    (g : NewTokens 1 vocab → ℝ≥0∞) :
    expected (stepLaw torch cfg p q bonusLogits (n + 1)) g =
      ∑ d, ENNReal.ofReal (q [] d) *
        (ENNReal.ofReal (acceptProb clampMin (p [] d) (q [] d)) *
            expected (stepLaw torch cfg (p.after d) (q.after d) (fun ds => bonusLogits (d :: ds)) n)
              (fun new => g ⟨col d :: new.drafts, new.last⟩) +
          ENNReal.ofReal (1 - acceptProb clampMin (p [] d) (q [] d)) *
            ∑ v, ENNReal.ofReal (corrected (p []) (q []) v / ∑ u, corrected (p []) (q []) u) *
              g ⟨[], col v⟩) := by
  rw [stepLaw, draftLaw, expected_bind, expected_bind, expected_proposed (h.draft [] (Nat.succ_pos n))]
  apply Finset.sum_congr rfl
  intro d _
  have hrest : ∀ c : ℝ≥0∞, expected (draftLaw (q.after d) n) (fun _ => c) = c :=
    expected_draftLaw (h.after d).draft
  congr 1
  rw [expected_bind]
  simp only [expected_pure, positionsOf, rejectionLaw, expected_bind, expected_accept, if_true,
    Bool.false_eq_true, if_false, expected_resampled, expected_add, expected_mul_left, hrest]
  rw [stepLaw, expected_bind]
  rfl

theorem rowText_cons (v : Token vocab) (cols : List (Column 1 vocab)) :
    rowText (col v :: cols) = v :: rowText cols := rfl

theorem toList_cons (d : Column 1 vocab) (drafts : List (Column 1 vocab)) (last : Column 1 vocab) :
    (NewTokens.mk (d :: drafts) last).toList = d :: (NewTokens.mk drafts last).toList := rfl

theorem first_accepted (d v : Token vocab) (drafts : List (Column 1 vocab)) (last : Column 1 vocab) :
    ([v] <+: rowText (NewTokens.mk (col d :: drafts) last).toList) = (v = d) := by
  simp [NewTokens.toList, rowText, col, List.cons_prefix_cons]

theorem first_replaced (d v : Token vocab) :
    ([v] <+: rowText (NewTokens.mk [] (col d)).toList) = (v = d) := by
  simp [NewTokens.toList, rowText, col, List.cons_prefix_cons]

theorem sum_first (new : NewTokens 1 vocab) : ∑ v, holds ([v] <+: rowText new.toList) = 1 := by
  have hone : ∀ u : Token vocab, ∑ v, holds (v = u) = 1 := by
    intro u
    simp only [eq_comm (b := u)]
    have hsum := sum_mul_holds (fun _ : Token vocab => 1) u
    simpa only [one_mul] using hsum
  cases new with
  | mk drafts last =>
    cases drafts with
    | nil =>
      have hlast : last = col (last 0) := funext (fun b => congrArg last (Subsingleton.elim b 0))
      rw [hlast]
      simp only [first_replaced, hone]
    | cons d drafts =>
      have hd : d = col (d 0) := funext (fun b => congrArg d (Subsingleton.elim b 0))
      rw [hd]
      simp only [first_accepted, hone]

theorem expected_const {x : Law (NewTokens 1 vocab)} {w : Token vocab → ℝ} (hw : Distribution w)
    (hx : ∀ v, expected x (fun new => holds ([v] <+: rowText new.toList)) = ENNReal.ofReal (w v))
    (c : ℝ≥0∞) : expected x (fun _ => c) = c := by
  calc expected x (fun _ => c)
      = c * expected x (fun new => ∑ v, holds ([v] <+: rowText new.toList)) := by
        simp only [sum_first, ← expected_mul_left, mul_one]
    _ = c := by rw [expected_sum, Finset.sum_congr rfl (fun v _ => hx v), sum_weights hw, mul_one]

theorem sum_round {p q : Token vocab → ℝ} (hp : Distribution p) (hq : Distribution q)
    (hproposed : ∀ v, q v = 0 ∨ clampMin ≤ q v) (v : Token vocab) :
    ∑ d, ENNReal.ofReal (q d) * (ENNReal.ofReal (acceptProb clampMin (p d) (q d)) * holds (v = d) +
      ENNReal.ofReal (1 - acceptProb clampMin (p d) (q d)) *
        ENNReal.ofReal (corrected p q v / ∑ u, corrected p q u)) = ENNReal.ofReal (p v) := by
  have hround := round_eq_target clampMin_pos hp hq hproposed v
  have haccept : ∀ d, 0 ≤ acceptProb clampMin (p d) (q d) := fun d => acceptProb_nonneg clampMin_pos _ _
  have hreject : ∀ d, 0 ≤ 1 - acceptProb clampMin (p d) (q d) :=
    fun d => sub_nonneg.2 (acceptProb_le_one _ _ _)
  have hcorrected : 0 ≤ corrected p q v / ∑ u, corrected p q u :=
    div_nonneg (le_max_right _ _) (Finset.sum_nonneg (fun u _ => le_max_right _ _))
  have hone : ∀ d : Token vocab, (0 : ℝ) ≤ if d = v then 1 else 0 := by
    intro d
    split
    · exact zero_le_one
    · exact le_refl 0
  have hholds : ∀ d, holds (v = d) = ENNReal.ofReal (if d = v then 1 else 0) := by
    intro d
    by_cases hd : d = v
    · rw [holds_true hd.symm, if_pos hd, ENNReal.ofReal_one]
    · rw [holds_false (Ne.symm hd), if_neg hd, ENNReal.ofReal_zero]
  rw [← hround, ENNReal.ofReal_sum_of_nonneg]
  · apply Finset.sum_congr rfl
    intro d _
    rw [hholds, ← ENNReal.ofReal_mul (haccept d), ← ENNReal.ofReal_mul (hreject d),
      ← ENNReal.ofReal_add (mul_nonneg (haccept d) (hone d)) (mul_nonneg (hreject d) hcorrected),
      ← ENNReal.ofReal_mul (hq.nonneg d)]
  · intro d _
    exact mul_nonneg (hq.nonneg d)
      (add_nonneg (mul_nonneg (haccept d) (hone d)) (mul_nonneg (hreject d) hcorrected))

theorem expected_first (h : Exact torch cfg p q bonusLogits n) (v : Token vocab) :
    expected (stepLaw torch cfg p q bonusLogits n) (fun new => holds ([v] <+: rowText new.toList)) =
      ENNReal.ofReal (p [] v) := by
  induction n generalizing p q bonusLogits v with
  | zero =>
    rw [expected_stepLaw_zero h]
    simp only [first_replaced, sum_mul_holds]
  | succ n ih =>
    have hrest : ∀ d c, expected (stepLaw torch cfg (p.after d) (q.after d)
        (fun ds => bonusLogits (d :: ds)) n) (fun _ => c) = c :=
      fun d => expected_const ((h.after d).target [] (Nat.zero_le n)) (ih (h.after d))
    rw [expected_stepLaw_succ h]
    simp only [first_accepted, first_replaced, hrest, sum_mul_holds]
    exact sum_round (h.target [] (Nat.zero_le _)) (h.draft [] (Nat.succ_pos n))
      (fun u => h.proposed [] u (Nat.succ_pos n)) v

theorem expected_returns (h : Exact torch cfg p q bonusLogits n) (c : ℝ≥0∞) :
    expected (stepLaw torch cfg p q bonusLogits n) (fun _ => c) = c :=
  expected_const (h.target [] (Nat.zero_le n)) (expected_first h) c

theorem expected_accepted (h : Exact torch cfg p q bonusLogits (n + 1)) {d : Token vocab}
    {E F : NewTokens 1 vocab → Prop} (hnone : ∀ last, ¬E ⟨[], last⟩)
    (hcons : ∀ d' drafts last, E ⟨col d' :: drafts, last⟩ ↔ d' = d ∧ F ⟨drafts, last⟩) :
    expected (stepLaw torch cfg p q bonusLogits (n + 1)) (fun new => holds (E new)) =
      ENNReal.ofReal (q [] d) * (ENNReal.ofReal (acceptProb clampMin (p [] d) (q [] d)) *
        expected (stepLaw torch cfg (p.after d) (q.after d) (fun ds => bonusLogits (d :: ds)) n)
          (fun new => holds (F new))) := by
  have hreplaced : ∀ u, holds (E ⟨[], col u⟩) = 0 := fun u => holds_false (hnone _)
  rw [expected_stepLaw_succ h]
  simp only [hreplaced, mul_zero, Finset.sum_const_zero, add_zero]
  rw [Finset.sum_eq_single d]
  · simp only [hcons, true_and]
  · intro d' _ hd'
    have hother : ∀ new : NewTokens 1 vocab, holds (E ⟨col d' :: new.drafts, new.last⟩) = 0 :=
      fun new => holds_false (fun hE => hd' ((hcons _ _ _).1 hE).1)
    simp only [hother, expected_zero, mul_zero]
  · intro hd
    exact absurd (Finset.mem_univ d) hd

theorem expected_next (h : Exact torch cfg p q bonusLogits n) (pre : List (Token vocab))
    (hpre : pre.length ≤ n) (v : Token vocab) :
    expected (stepLaw torch cfg p q bonusLogits n)
        (fun new => holds (pre <+: rowText new.drafts ∧ pre ++ [v] <+: rowText new.toList)) =
      expected (stepLaw torch cfg p q bonusLogits n) (fun new => holds (pre <+: rowText new.drafts)) *
        ENNReal.ofReal (p pre v) := by
  induction pre generalizing p q bonusLogits n with
  | nil =>
    simp only [List.nil_prefix, true_and, List.nil_append, expected_first h, expected_returns h]
    rw [holds_true trivial, one_mul]
  | cons d pre ih =>
    cases n with
    | zero => exact absurd hpre (Nat.not_succ_le_zero _)
    | succ n =>
      have hnone : ∀ last : Column 1 vocab, ¬(d :: pre) <+: rowText (NewTokens.mk [] last).drafts := by
        intro last hprefix
        exact absurd (List.prefix_nil.1 hprefix) (List.cons_ne_nil _ _)
      have haccepted : ∀ d' (drafts : List (Column 1 vocab)),
          (d :: pre) <+: rowText (col d' :: drafts) ↔ d' = d ∧ pre <+: rowText drafts := by
        intro d' drafts
        rw [rowText_cons, List.cons_prefix_cons, eq_comm]
      have hnext : ∀ d' drafts (last : Column 1 vocab),
          ((d :: pre) <+: rowText (col d' :: drafts) ∧
            (d :: pre) ++ [v] <+: rowText (NewTokens.mk (col d' :: drafts) last).toList) ↔
          d' = d ∧ pre <+: rowText drafts ∧ pre ++ [v] <+: rowText (NewTokens.mk drafts last).toList := by
        intro d' drafts last
        rw [haccepted, toList_cons, rowText_cons, List.cons_append, List.cons_prefix_cons,
          eq_comm (a := d)]
        constructor
        · intro hE
          exact ⟨hE.1.1, hE.1.2, hE.2.2⟩
        · intro hE
          exact ⟨⟨hE.1, hE.2.1⟩, hE.1, hE.2.2⟩
      rw [expected_accepted h (F := fun new => pre <+: rowText new.drafts ∧
          pre ++ [v] <+: rowText new.toList) (fun last hE => hnone last hE.1) hnext,
        expected_accepted h (F := fun new => pre <+: rowText new.drafts) hnone
          (fun d' drafts last => haccepted d' drafts),
        ih (h.after d) (Nat.le_of_succ_le_succ hpre), NextProbs.after, mul_assoc, mul_assoc]

end Steps

/-- Whatever the lengths and the distributions: a step returns tokens of which the first is
distributed as the target's, and after accepted drafts the next one is, the bonus token included. What it
returns is what `rejectionSample` makes of the drafts and of uniform draws. -/
theorem stepLaw_lossless (torch : Torch vocab ℝ) (cfg : SampleConfig ℝ) (p q : NextProbs vocab ℝ)
    (bonusLogits : List (Token vocab) → Token vocab → ℝ) (numDraftTokens : ℕ)
    (h : Exact torch cfg p q bonusLogits numDraftTokens) :
    (∀ v, chance (stepLaw torch cfg p q bonusLogits numDraftTokens)
      (fun new => [v] <+: rowText new.toList) = ENNReal.ofReal (p [] v)) ∧
    (∀ pre v, pre.length ≤ numDraftTokens →
      chance (stepLaw torch cfg p q bonusLogits numDraftTokens)
        (fun new => pre <+: rowText new.drafts ∧ pre ++ [v] <+: rowText new.toList) =
      chance (stepLaw torch cfg p q bonusLogits numDraftTokens)
        (fun new => pre <+: rowText new.drafts) * ENNReal.ofReal (p pre v)) ∧
    ∀ [NeZero vocab] (E : NewTokens 1 vocab → Prop),
      chance (stepLaw torch cfg p q bonusLogits numDraftTokens) E =
        expected (draftLaw q numDraftTokens) (fun ds =>
          average (positionsOf p q ds).length (fun rand s t => worth (fun new => holds (E new))
            (rejectionSample torch cfg (fun _ => inverse s) (fun _ => inverse t) rand
              (positionsOf p q ds) (fun _ => bonusLogits ds)))) := by
  refine ⟨?_, ?_, ?_⟩
  · intro v
    rw [chance_eq, expected_first h]
  · intro pre v hpre
    rw [chance_eq, chance_eq, expected_next h pre hpre]
  · intro _ E
    rw [chance_eq, stepLaw, expected_bind]
    simp only [expected_rejectionLaw]

noncomputable def evenLogits : List (Token 2) → Token 2 → ℝ := fun _ _ => 0

noncomputable def evenTarget : NextProbs 2 ℝ := fun _ => probs realTorch ⟨1, 0, 1⟩ (evenLogits [])

def firstOnly : NextProbs 2 ℝ := fun _ v => if v.val = 0 then 1 else 0

theorem even_exact : Exact realTorch ⟨1, 0, 1⟩ evenTarget firstOnly evenLogits 1 where
  target := fun _ _ => probs_distribution zero_le_one _
  draft := by
    intro ds _
    constructor
    · intro v
      rw [firstOnly]
      split
      · exact zero_le_one
      · exact le_refl 0
    · simp [firstOnly]
  proposed := by
    intro ds v _
    rw [firstOnly]
    split
    · exact .inr clampMin_le_one
    · exact .inl rfl
  bonus := fun _ _ => logitsToProbs_eq one_pos

theorem even_lossless :
    (∀ v, chance (stepLaw realTorch ⟨1, 0, 1⟩ evenTarget firstOnly evenLogits 1)
      (fun new => [v] <+: rowText new.toList) = ENNReal.ofReal (evenTarget [] v)) ∧
    ∀ pre v, pre.length ≤ 1 →
      chance (stepLaw realTorch ⟨1, 0, 1⟩ evenTarget firstOnly evenLogits 1)
        (fun new => pre <+: rowText new.drafts ∧ pre ++ [v] <+: rowText new.toList) =
      chance (stepLaw realTorch ⟨1, 0, 1⟩ evenTarget firstOnly evenLogits 1)
        (fun new => pre <+: rowText new.drafts) * ENNReal.ofReal (evenTarget pre v) :=
  let hlossless := stepLaw_lossless realTorch ⟨1, 0, 1⟩ evenTarget firstOnly evenLogits 1 even_exact
  ⟨hlossless.1, hlossless.2.1⟩

end Slakshna.Speculative

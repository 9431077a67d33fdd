import Mathlib.Algebra.BigOperators.Field
import Mathlib.Analysis.SpecialFunctions.Exp
import Slakshna.Engine.Tensor
import Slakshna.Lib.Fallible
import Slakshna.Models.Introspect

/-! The load-balancing loss over the router logits of a mixture, in exact arithmetic. A layer whose
logits are for the selected experts only has the same dispatch fraction in each column. -/
namespace Slakshna.MoeLoss
open Engine Introspect
variable {K : Type}

structure Logits (K : Type) where
  tokens : ℕ
  cols : ℕ
  entry : Fin tokens → Fin cols → K

inductive Part (K : Type) where
  | tensor (l : Logits K)
  | other

inductive Item (K : Type) where
  | tensor (l : Logits K)
  | tuple (parts : List (Part K))
  | other

inductive RouterLogits (K : Type) where
  | tensor (l : Logits K)
  | items (items : List (Item K))

def Item.logits? : Item K → Option (Logits K)
  | .tensor l => some l
  | .tuple (.tensor l :: _) => some l
  | _ => none

def normalizeRouterLogits : RouterLogits K → List (Logits K)
  | .tensor l => [l]
  | .items items => items.filterMap Item.logits?

inductive Kind where
  | full
  | topk
  | gate
  deriving DecidableEq

def inferLogitKind (l : Logits K) (profile : ModelProfile) : Kind :=
  let n : ℤ := l.cols
  let totalRouted := profile.numExperts
  let totalWithShared := totalRouted + profile.numSharedExperts
  let k := profile.expertsPerToken
  let topkThreshold := max (k * 2) 8
  if n = 1 then .gate
  else if totalRouted > 0 ∧ n = totalRouted then .full
  else if totalWithShared > 0 ∧ n = totalWithShared then .full
  else if k > 0 ∧ n = k then .topk
  else if totalRouted > 0 ∧ n < totalRouted ∧ n ≤ topkThreshold then .topk
  else .full

structure Torch (K : Type) [Field K] [LinearOrder K] where
  exp : K → K
  exp_pos : ∀ x, 0 < exp x
  topk : TopIndices K

inductive LossError where
  | kOutOfRange
  | divisionByZero

variable [Field K] [LinearOrder K]

def softmax (torch : Torch K) {n : ℕ} (row : Fin n → K) (i : Fin n) : K :=
  torch.exp (row i) / ∑ j, torch.exp (row j)

def meanProb (torch : Torch K) (l : Logits K) (i : Fin l.cols) : K :=
  (∑ t, softmax torch (l.entry t) i) / l.tokens

def dispatched (torch : Torch K) (l : Logits K) (k : ℕ) (i : Fin l.cols) : K :=
  (∑ t, if i ∈ torch.topk.pick (softmax torch (l.entry t)) k then 1 else 0) / l.tokens

def layerLoss (torch : Torch K) (profile : ModelProfile) (l : Logits K) :
    Except LossError (Option K) :=
  match inferLogitKind l profile with
  | .gate => .ok none
  | .full =>
    let k := min (if profile.expertsPerToken = 0 then 1 else profile.expertsPerToken) l.cols
    if k < 0 then .error .kOutOfRange
    else .ok (some ((∑ i, dispatched torch l k.toNat i * meanProb torch l i) * l.cols))
  | .topk =>
    if l.cols = 0 then .error .divisionByZero
    else .ok (some ((∑ i, 1 / (l.cols : K) * meanProb torch l i) * l.cols))

def loadBalancingLoss (torch : Torch K) (routerLogits : RouterLogits K) (profile : ModelProfile) :
    Option K :=
  match (normalizeRouterLogits routerLogits).mapM (layerLoss torch profile) with
  | .error _ => none
  | .ok contributions =>
    let perLayer := contributions.filterMap id
    if perLayer = [] then none else some (perLayer.sum / perLayer.length)

def ContributesMore (torch : Torch K) (profile : ModelProfile) (a b : Logits K) : Prop :=
  ∃ x y, layerLoss torch profile a = .ok (some x) ∧ layerLoss torch profile b = .ok (some y) ∧ y < x

def Balanced (torch : Torch K) (l : Logits K) : Prop :=
  ∀ i j, meanProb torch l i = meanProb torch l j

variable [IsStrictOrderedRing K] {torch : Torch K} {profile : ModelProfile} {l : Logits K}

theorem sum_softmax {n : ℕ} (hn : 0 < n) (row : Fin n → K) : ∑ i, softmax torch row i = 1 := by
  have hpos : 0 < ∑ j, torch.exp (row j) :=
    Finset.sum_pos (fun j _ => torch.exp_pos _) ⟨⟨0, hn⟩, Finset.mem_univ _⟩
  simp only [softmax]
  rw [← Finset.sum_div, div_self hpos.ne']

theorem sum_meanProb (hcols : 0 < l.cols) (htokens : 0 < l.tokens) :
    ∑ i, meanProb torch l i = 1 := by
  simp only [meanProb]
  rw [← Finset.sum_div, Finset.sum_comm]
  simp only [sum_softmax hcols]
  rw [Finset.sum_const, Finset.card_univ, Fintype.card_fin, nsmul_one]
  exact div_self (Nat.cast_ne_zero.2 htokens.ne')

theorem layerLoss_topk (hkind : inferLogitKind l profile = .topk) (htokens : 0 < l.tokens)
    (hcols : 0 < l.cols) : layerLoss torch profile l = .ok (some 1) := by
  have hne : (l.cols : K) ≠ 0 := Nat.cast_ne_zero.2 hcols.ne'
  simp only [layerLoss, hkind, if_neg hcols.ne']
  rw [← Finset.mul_sum, sum_meanProb hcols htokens, mul_one, div_mul_cancel₀ _ hne]

theorem layerLoss_topk_eq_one (hkind : inferLogitKind l profile = .topk) (htokens : 0 < l.tokens)
    {x : K} (hx : layerLoss torch profile l = .ok (some x)) : x = 1 := by
  have hcols : 0 < l.cols := by
    by_contra hnot
    simp [layerLoss, hkind, Nat.eq_zero_of_not_pos hnot] at hx
  rw [layerLoss_topk hkind htokens hcols] at hx
  exact (Option.some.inj (Except.ok.inj hx)).symm

/-- No layer of top-k logits contributes more than another, and a loss over such layers is one
whatever the logits are. -/
theorem topk_loss_constant (torch : Torch K) (profile : ModelProfile) :
    (∀ a b : Logits K, inferLogitKind a profile = .topk → inferLogitKind b profile = .topk →
      0 < a.tokens → 0 < b.tokens → ¬ContributesMore torch profile a b) ∧
    ∀ routerLogits : RouterLogits K, normalizeRouterLogits routerLogits ≠ [] →
      (∀ l ∈ normalizeRouterLogits routerLogits,
        inferLogitKind l profile = .topk ∧ 0 < l.tokens ∧ 0 < l.cols) →
      loadBalancingLoss torch routerLogits profile = some 1 := by
  constructor
  · rintro a b ha hb hta htb ⟨x, y, hx, hy, hless⟩
    rw [layerLoss_topk_eq_one ha hta hx, layerLoss_topk_eq_one hb htb hy] at hless
    exact lt_irrefl _ hless
  · intro routerLogits hne hlayers
    have hlosses : (normalizeRouterLogits routerLogits).mapM (layerLoss torch profile) =
        .ok ((normalizeRouterLogits routerLogits).map (fun _ => some 1)) := by
      apply Fallible.mapM_ok
      intro l hl
      obtain ⟨hkind, htokens, hcols⟩ := hlayers l hl
      exact layerLoss_topk hkind htokens hcols
    rw [loadBalancingLoss, hlosses]
    generalize normalizeRouterLogits routerLogits = layers at hne
    have hperLayer : (layers.map (fun _ => some (1 : K))).filterMap id =
        List.replicate layers.length 1 := by
      simp [List.filterMap_map]
    have hcount : layers.length ≠ 0 := mt List.eq_nil_of_length_eq_zero hne
    simp only [hperLayer, List.replicate_eq_nil_iff, if_neg hcount, List.sum_replicate,
      List.length_replicate, nsmul_one]
    rw [div_self (Nat.cast_ne_zero.2 hcount)]

section Real

noncomputable def expTorch : Torch ℝ := ⟨Real.exp, Real.exp_pos, earliestIndices ℝ⟩

def twoOfEight : ModelProfile := ⟨true, 8, 0, 2, none, [], [], [], 0⟩

def oneToken (row : Fin 2 → ℝ) : Logits ℝ := ⟨1, 2, fun _ => row⟩

def skewed : Logits ℝ := oneToken (fun i => i.val)

def even : Logits ℝ := oneToken (fun _ => 0)

theorem meanProb_oneToken (row : Fin 2 → ℝ) (i : Fin 2) : meanProb expTorch (oneToken row) i =
    Real.exp (row i) / (Real.exp (row 0) + Real.exp (row 1)) := by
  have hmean : meanProb expTorch (oneToken row) i =
      (∑ _ : Fin 1, Real.exp (row i) / ∑ j : Fin 2, Real.exp (row j)) / (1 : ℕ) := rfl
  rw [hmean, Fin.sum_univ_one, Fin.sum_univ_two, Nat.cast_one, div_one]

theorem skewed_not_balanced : ¬Balanced expTorch skewed := by
  intro h
  have hequal := (meanProb_oneToken _ 0).symm.trans
    ((h (0 : Fin 2) (1 : Fin 2)).trans (meanProb_oneToken _ 1))
  have hpos : Real.exp ((0 : Fin 2).val) + Real.exp ((1 : Fin 2).val) ≠ 0 :=
    (add_pos (Real.exp_pos _) (Real.exp_pos _)).ne'
  have hvalues := Real.exp_injective ((div_left_inj' hpos).1 hequal)
  norm_num at hvalues

theorem even_balanced : Balanced expTorch even := by
  intro i j
  exact (meanProb_oneToken (fun _ => 0) i).trans (meanProb_oneToken (fun _ => 0) j).symm

/-- The skewed layer contributes no more than the even one. -/
theorem skewed_not_more : ¬∀ a b : Logits ℝ, inferLogitKind a twoOfEight = .topk →
    inferLogitKind b twoOfEight = .topk → 0 < a.tokens → 0 < b.tokens →
    ¬Balanced expTorch a → Balanced expTorch b → ContributesMore expTorch twoOfEight a b := by
  intro h
  obtain ⟨x, y, hx, hy, hless⟩ := h skewed even (by decide) (by decide) Nat.one_pos Nat.one_pos
    skewed_not_balanced even_balanced
  rw [layerLoss_topk_eq_one (by decide) Nat.one_pos hx,
    layerLoss_topk_eq_one (by decide) Nat.one_pos hy] at hless
  exact lt_irrefl _ hless

theorem topk_loss_constant_sample : ¬ContributesMore expTorch twoOfEight skewed even ∧
    loadBalancingLoss expTorch (.items [.tensor skewed, .tuple [.tensor even, .other]])
      twoOfEight = some 1 := by
  obtain ⟨hmore, hloss⟩ := topk_loss_constant expTorch twoOfEight
  refine ⟨hmore _ _ (by decide) (by decide) Nat.one_pos Nat.one_pos, hloss _ ?_ ?_⟩
  · exact List.cons_ne_nil _ _
  · intro l hl
    rcases List.mem_pair.1 hl with rfl | rfl
    · exact ⟨by decide, Nat.one_pos, Nat.two_pos⟩
    · exact ⟨by decide, Nat.one_pos, Nat.two_pos⟩

end Real

end Slakshna.MoeLoss

import Mathlib.Data.Finset.Max
import Mathlib.Data.Fintype.Card
import Slakshna.Inference.Nucleus

/-! What the next token is drawn from: the tokens that are left after the filters, each with the
weight of its scaled logit. Both samplers come to the same distribution. -/
namespace Slakshna.Sampling
open Rejection PartialSum
variable {vocab : ℕ} {K : Type} [Field K] [LinearOrder K]

structure Filtered (before after : Token vocab → WithBot K) : Prop where
  same : ∀ v, after v ≠ ⊥ → after v = before v
  larger : ∀ u v, after v ≠ ⊥ → before v < before u → after u ≠ ⊥
  left : ∃ v, after v ≠ ⊥

def survivors (l : Token vocab → WithBot K) : Finset (Token vocab) :=
  Finset.univ.filter (fun v => l v ≠ ⊥)

def largerThan {L : Type} [LT L] [DecidableLT L] (l : Token vocab → L) (v : Token vocab) :
    Finset (Token vocab) :=
  Finset.univ.filter (fun u => l v < l u)

def topKStage (torch : Torch vocab K) (cfg : SampleConfig K) (logits : Token vocab → WithBot K) :
    Token vocab → WithBot K :=
  if cfg.topK > 0 then topKFilter torch logits cfg.topK else logits

structure Sound (torch : Torch vocab K) (cfg : SampleConfig K) (logits scaled p : Token vocab → K) :
    Prop where
  distribution : Distribution p
  maximal : ∃ v, 0 < p v ∧ ∀ u, logits u ≤ logits v
  proportional : ∃ c, 0 < c ∧ ∀ v, 0 < p v → p v = c * torch.exp (scaled v)
  ordered : ∀ u v, p u = 0 → 0 < p v → ¬logits v < logits u
  atLeast : min cfg.topK.toNat vocab ≤
    (survivors (topKStage torch cfg (fun v => (scaled v : K)))).card
  fewer : 0 < cfg.topK → ∀ v ∈ survivors (topKStage torch cfg (fun v => (scaled v : K))),
    (largerThan logits v).card < cfg.topK.toNat

section Filtered
variable {l s t : Token vocab → WithBot K} {torch : Torch vocab K} {u v : Token vocab}

omit [Field K] in
theorem Filtered.refl (h : ∃ v, l v ≠ ⊥) : Filtered l l :=
  ⟨fun _ _ => rfl, fun _ _ _ hless => hless.ne_bot, h⟩

omit [Field K] in
theorem Filtered.trans (hs : Filtered l s) (ht : Filtered s t) : Filtered l t where
  same := by
    intro v hv
    have hsame := ht.same v hv
    rw [hsame]
    exact hs.same v (hsame ▸ hv)
  larger := by
    intro u v hv hless
    have hsame := ht.same v hv
    have hsv : s v ≠ ⊥ := hsame ▸ hv
    have hsu := hs.larger u v hsv hless
    apply ht.larger u v hv
    rwa [hs.same v hsv, hs.same u hsu]
  left := ht.left

variable {cfg : SampleConfig K}

end Filtered

section TopK
variable {l : Token vocab → WithBot K} {torch : Torch vocab K} {topK : ℤ}

end TopK

section Draw
variable [IsStrictOrderedRing K] {torch : Torch vocab K} {cfg : SampleConfig K}

end Draw

end Slakshna.Sampling

import Mathlib.Algebra.Order.Archimedean.Real.Basic
import Slakshna.Lib.Run
import Slakshna.Engine.Update

/-! Runs of the engines of all nodes, in any order, where each has some of the deltas that were sent
before it. -/
namespace Slakshna.Engine
open Checkpoint FileTree

structure Federation (N K : Type) where
  node : N → EngineState K
  published : List (StateDict (Tensor K))

structure EngineEvent (N K L : Type) where
  node : N
  input : EngineInput K L

namespace Federation
variable {N K L : Type} [DecidableEq N] [Field K] [LinearOrder K] [FloorSemiring K]

def step (torch : Torch K) (exp : K → K) (cfg : N → EngineConfig) (f : Federation N K)
    (e : EngineEvent N K L) : Federation N K :=
  match engineRun torch exp (cfg e.node) (f.node e.node) e.input with
  | none => f
  | some (sent, s') => ⟨Function.update f.node e.node s', f.published ++ [sent]⟩

theorem step_cases (torch : Torch K) (exp : K → K) (cfg : N → EngineConfig) (f : Federation N K)
    (e : EngineEvent N K L) :
    step torch exp cfg f e = f ∨ ∃ own sent s',
      Ran torch exp (cfg e.node) (f.node e.node) e.input own sent s' ∧
      step torch exp cfg f e = ⟨Function.update f.node e.node s', f.published ++ [sent]⟩ := by
  rw [step]
  cases h : engineRun torch exp (cfg e.node) (f.node e.node) e.input with
  | none => exact .inl rfl
  | some r =>
    obtain ⟨own, hran⟩ := engineRun_eq_some_iff.1 h
    exact .inr ⟨own, r.1, r.2, hran, rfl⟩

section Drift
variable [IsStrictOrderedRing K] {torch : Torch K} {exp : K → K} {cfg : N → EngineConfig} {D : K}

structure Sound (torch : Torch K) (D : K) (f : Federation N K) : Prop where
  published : ∀ sd ∈ f.published, SmallDelta D sd
  stored : ∀ n, (f.node n).base.Stored torch.bfloat16

/-- The run has distinct neighbours, its training moved no weight further, and all it has of the
others was sent. -/
structure Trains (cfg : N → EngineConfig) (D : K) (f : Federation N K) (e : EngineEvent N K L) :
    Prop where
  distinct : ((cfg e.node).myId :: e.input.neighbors).Nodup
  trained : TrainsWithin D (cfg e.node).mode (f.node e.node).base e.input.walk
  received : ∀ j sd, e.input.received j = some sd → sd ∈ f.published

theorem Sound.step (htorch : torch.Lawful D) (hD : 0 ≤ D) (hexp : ∀ x, 0 < exp x)
    {f : Federation N K} (hf : Sound torch D f) {e : EngineEvent N K L}
    (he : Trains cfg D f e) :
    Sound torch D (step torch exp cfg f e) ∧ ∀ n,
      NearDict ([e].countP (fun e => e.node = n) * (2 * D)) (f.node n).base.load
        ((Federation.step torch exp cfg f e).node n).base.load := by
  have hbound : ∀ n, 0 ≤ ([e].countP (fun e => e.node = n) : K) * (2 * D) :=
    fun n => mul_nonneg (Nat.cast_nonneg _) (mul_nonneg zero_le_two hD)
  obtain hsame | ⟨own, sent, s', hran, hstep⟩ := step_cases torch exp cfg f e
  · rw [hsame]
    exact ⟨hf, fun n => nearDict_refl (hbound n) _⟩
  · have hown : SmallDelta D own := smallDelta_extractDelta hD htorch he.trained hran.extracted
    have hsent : SmallDelta D sent := smallDelta_sparseDelta hD htorch hown hran.sparse
    have hagg := smallDelta_deltaAgg hD hexp
      (s := ⟨(cfg e.node).myId, (f.node e.node).alpha, e.input.draw⟩)
      (d := ⟨own, e.input.received⟩) he.distinct hown
      (fun j sd hsd => hf.published sd (he.received j sd hsd))
    obtain ⟨hnear, hstored⟩ := newBase_near htorch hD hagg (hf.stored e.node) hran.base
    rw [hstep]
    refine ⟨⟨?_, fun n => ?_⟩, fun n => ?_⟩
    · intro sd hsd
      obtain hsd | hsd := List.mem_append.1 hsd
      · exact hf.published sd hsd
      · exact List.mem_singleton.1 hsd ▸ hsent
    · by_cases hn : n = e.node
      · subst hn
        simpa using hstored
      · simpa [hn] using hf.stored n
    · by_cases hn : n = e.node
      · subst hn
        simpa using hnear
      · simp only [Function.update_of_ne hn]
        exact nearDict_refl (hbound n) _

end Drift

noncomputable def exactTorch : Torch ℝ where
  sub v b := if b.shape = v.shape then some (v.addScaled (-1) b) else none
  iadd b u := if u.shape = b.shape then some (b.addScaled 1 u) else none
  half := id
  bfloat16 := id
  topk := earliestIndices ℝ
  cosine _ _ := ⟨0, Set.mem_Icc.2 ⟨neg_nonpos.2 zero_le_one, zero_le_one⟩⟩

def weightOf (x : ℝ) : StateDict (Tensor ℝ) := AList.singleton ['w'] ⟨[1], fun _ => x⟩

def sampleFederation : Federation Bool ℝ where
  node _ := ⟨AList.singleton "b" 1, ⟨[weightOf 1], []⟩⟩
  published := []

def sampleConfig (mode : TrainingMode) (n : Bool) : EngineConfig :=
  ⟨if n then "b" else "a", mode, []⟩

def trainedRun : EngineEvent Bool ℝ ℕ where
  node := false
  input :=
    { neighbors := ["b"]
      draw := fun _ => 0
      disk := AList.singleton [stepName 1] .dir
      iter := .asStored
      walk := [⟨"model.safetensors".toList, 1, weightOf 0⟩]
      received := fun _ => none }

section Idle
variable {torch : Torch K} {cfg : N → EngineConfig}

structure Idles (cfg : N → EngineConfig) (f : Federation N K) (e : EngineEvent N K L) : Prop where
  distinct : ((cfg e.node).myId :: e.input.neighbors).Nodup
  completed : ∃ name, CompletedIn e.input.disk (cfg e.node).ckptDir name
  present : (cfg e.node).mode = .pretraining → (f.node e.node).base.isMissing = false
  received : ∀ j sd, e.input.received j = some sd → sd ∈ f.published

structure Quiet (torch : Torch K) (f : Federation N K) : Prop where
  published : ∀ sd ∈ f.published, sd = ∅
  stored : ∀ n, (f.node n).base.Stored torch.bfloat16

def TakesPart (cfg : N → EngineConfig) (n : N) (j : String) (e : EngineEvent N K L) : Prop :=
  e.node = n ∧ j ∈ (cfg n).myId :: e.input.neighbors

instance (cfg : N → EngineConfig) (n : N) (j : String) :
    DecidablePred (TakesPart cfg n j : EngineEvent N K L → Prop) :=
  fun _ => inferInstanceAs (Decidable (_ ∧ _))

theorem Quiet.step (exp : K → K) {f : Federation N K} (hf : Quiet torch f)
    {e : EngineEvent N K L} (he : Idles cfg f e) :
    Quiet torch (step torch exp cfg f e) ∧ ∀ n,
      Fades (fun j => if TakesPart cfg n j e then 98 / 100 else 1) (f.node n)
        ((Federation.step torch exp cfg f e).node n) := by
  obtain ⟨name, hname⟩ := he.completed
  obtain ⟨s', hs', hfades⟩ := engineRun_completed torch exp he.distinct hname
    (fun k b hb => (hf.stored e.node k b hb).cast_eq) he.present
    (fun j sd hsd => hf.published sd (he.received j sd hsd))
  have hstep : Federation.step torch exp cfg f e =
      ⟨Function.update f.node e.node s', f.published ++ [∅]⟩ := by
    rw [Federation.step, hs']
  rw [hstep]
  refine ⟨⟨?_, fun n => ?_⟩, fun n => ?_⟩
  · intro sd hsd
    obtain hsd | hsd := List.mem_append.1 hsd
    · exact hf.published sd hsd
    · exact List.mem_singleton.1 hsd
  · by_cases hn : n = e.node
    · subst hn
      intro k b hb
      simp only [Function.update_self, hfades.base] at hb
      exact hf.stored e.node k b hb
    · simpa [hn] using hf.stored n
  · by_cases hn : n = e.node
    · subst hn
      simpa [TakesPart] using hfades
    · simpa [hn, TakesPart, Ne.symm hn] using Fades.refl (f.node n)

/-- Where each run finds a completed checkpoint, nothing that is ever sent has any key. No base
model changes, and the trust of a node in another falls by two percent with each round that has the
other, whatever was trained. -/
theorem completed_fades (exp : K → K) {f : Federation N K} (hf : Quiet torch f)
    (es : List (EngineEvent N K L)) (hes : Run.Along (step torch exp cfg) (Idles cfg) f es) :
    (∀ sd ∈ (Run.exec (step torch exp cfg) f es).published, sd = ∅) ∧
      ∀ n, Fades (fun j => (98 / 100) ^ es.countP (TakesPart cfg n j ·)) (f.node n)
        ((Run.exec (step torch exp cfg) f es).node n) := by
  induction es generalizing f with
  | nil => exact ⟨hf.published, fun n => by simpa using Fades.refl (f.node n)⟩
  | cons e es ih =>
    obtain ⟨hstep, hfirst⟩ := hf.step exp hes.1
    obtain ⟨hpublished, hrest⟩ := ih hstep hes.2
    refine ⟨hpublished, fun n => ?_⟩
    have hcount : ∀ j, (if TakesPart cfg n j e then 98 / 100 else 1 : K) *
        (98 / 100) ^ es.countP (TakesPart cfg n j ·) =
          (98 / 100) ^ (e :: es).countP (TakesPart cfg n j ·) := by
      intro j
      rw [List.countP_cons]
      by_cases h : TakesPart cfg n j e
      · simp [h, pow_succ']
      · simp [h]
    have htwo := (hfirst n).trans (hrest n)
    simp only [hcount] at htwo
    exact htwo

end Idle

def checkpointedRun : EngineEvent Bool ℝ ℕ where
  node := false
  input :=
    { trainedRun.input with
      disk := (AList.singleton [stepName 1] .dir).insert [stepName 1, completeName]
        (.file .empty) }

theorem sampleFederation_quiet : Quiet exactTorch sampleFederation :=
  ⟨fun _ h => absurd h List.not_mem_nil, fun _ _ _ _ _ _ => rfl⟩

theorem checkpointedRun_idles (f : Federation Bool ℝ) :
    Idles (sampleConfig .finetuning) f checkpointedRun := by
  refine ⟨by decide, ⟨stepName 1, ?_⟩, (fun h => by cases h), fun j sd h => by cases h⟩
  constructor <;> decide +kernel

theorem completed_fades_sample :
    let f := Run.exec (step exactTorch Real.exp (sampleConfig .finetuning)) sampleFederation
      [checkpointedRun, checkpointedRun]
    (∀ sd ∈ f.published, sd = ∅) ∧
      Trust.alphaOf (f.node false).alpha "b" = 1 * (98 / 100) ^ 2 := by
  have hfades := completed_fades Real.exp sampleFederation_quiet
    [checkpointedRun, checkpointedRun]
    ⟨checkpointedRun_idles _, checkpointedRun_idles _, trivial⟩
  have hstart : Trust.alphaOf (sampleFederation.node false).alpha "b" = 1 := rfl
  have hcount : [checkpointedRun, checkpointedRun].countP
      (TakesPart (sampleConfig .finetuning) false "b" ·) = 2 := by decide
  refine ⟨hfades.1, ?_⟩
  rw [((hfades.2 false).alpha "b" (by decide)).2, hstart, hcount]

end Federation

end Slakshna.Engine

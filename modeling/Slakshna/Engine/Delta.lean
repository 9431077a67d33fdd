import Slakshna.Training.Resume
import Slakshna.Engine.Tensor

/-! The delta that a node takes from its training and sends: it is read from the newest checkpoint
into a state dict without keys. -/
namespace Slakshna.Engine
open Checkpoint FileTree
variable {S L : Type}

inductive TrainingMode where
  | finetuning
  | pretraining

abbrev StateDict (S : Type) := HashMap Name S

def loraPart : Name := ['l', 'o', 'r', 'a', '_']

def isLora (k : Name) : Bool := decide (loraPart <:+: k)

def loraWeights (sd : StateDict S) : StateDict S :=
  sd.entries.foldl (fun delta e => if isLora e.1 then delta.insert e.1 e.2 else delta) ∅

/-- `delta = new - old` for the keys of the base model; a subtraction may raise. -/
def difference (sub : S → S → Option S) (sd base : StateDict S) : Option (StateDict S) :=
  sd.entries.foldlM (fun delta e =>
    match base.lookup e.1 with
    | some old => (sub e.2 old).map (delta.insert e.1)
    | none => some delta) ∅

structure BaseModel (S : Type) where
  safetensors : List (StateDict S)
  bins : List (StateDict S)

def BaseModel.load (base : BaseModel S) : StateDict S :=
  (if base.safetensors.isEmpty then base.bins else base.safetensors).foldl
    (fun sd file => file.entries.foldl (fun sd e => sd.insert e.1 e.2) sd) ∅

structure WalkedFile (S : Type) where
  name : Name
  mtime : ℕ
  stateDict : StateDict S

def adapterNames : List Name :=
  ["adapter_model.safetensors".toList, "adapter_model.bin".toList, "model.safetensors".toList,
    "pytorch_model.bin".toList]

def getAdapterPath (walk : List (WalkedFile S)) : Option (WalkedFile S) :=
  (walk.foldl (fun best file =>
    if adapterNames.contains file.name ∧ best.1 < file.mtime then (file.mtime, some file)
    else best)
    (0, none)).2

def dummyName : Name := "dummy".toList

def extractDelta (mode : TrainingMode) (sub : S → S → Option S) (dummy : S) (base : BaseModel S)
    (walk : List (WalkedFile S)) (iter : IterOrder Name) (t : Checkpoint.Disk S L)
    (ckptDir : List Name) : Option (StateDict S) :=
  if !pathExists t ckptDir then none
  else
    let stepDirs := candidatesIn iter t ckptDir
    match stepDirs.getLast? with
    | some latestStepDir => do
      let modelSd ← dcpLoad t (ckptDir ++ [latestStepDir, modelName]) ∅
      match mode with
      | .finetuning => return loraWeights modelSd
      | .pretraining => difference sub modelSd base.load
    | none =>
      match getAdapterPath walk with
      | some adapter =>
        match mode with
        | .finetuning => return adapter.stateDict
        | .pretraining => difference sub adapter.stateDict base.load
      | none => return AList.singleton dummyName dummy

section Sparse
variable {K : Type} [Field K] [LinearOrder K] [IsStrictOrderedRing K] [FloorSemiring K]

def sparseDelta (topk : TopIndices K) (half : K → K) (delta : StateDict (Tensor K)) :
    Except TensorError (StateDict (Tensor K)) :=
  delta.entries.foldlM (fun sent e => do
    let v ← sparsifyTensor topk e.2 (1 / (100 : ℕ))
    return sent.insert e.1 (v.reshape (fun i => half (v.entries i)))) ∅

end Sparse

structure CompletedIn (t : Checkpoint.Disk S L) (ckptDir : List Name) (name : Name) : Prop where
  dir : isDir t (ckptDir ++ [name]) = true
  step : (searchStep true name).isSome = true
  complete : ckptDir ++ [name, completeName] ∈ t

section Checkpoint
variable {iter : IterOrder Name} {t : Checkpoint.Disk S L} {ckptDir : List Name} {name : Name}

theorem mem_candidatesIn (iter : IterOrder Name) :
    name ∈ candidatesIn iter t ckptDir ↔ CompletedIn t ckptDir name := by
  rw [candidatesIn, (Lowest.sortBy_perm _ _).mem_iff, List.mem_filter, (iter.perm _).mem_iff,
    mem_children, Bool.and_eq_true, Bool.and_eq_true, decide_eq_true_iff]
  constructor
  · rintro ⟨-, ⟨hdir, hstep⟩, hcomplete⟩
    exact ⟨hdir, hstep, hcomplete⟩
  · intro h
    have hmem : ckptDir ++ [name] ∈ t := AList.lookup_isSome.1 (by rw [isDir_iff.1 h.dir]; rfl)
    exact ⟨hmem, ⟨h.dir, h.step⟩, h.complete⟩

theorem getLast_candidatesIn_spec (h : (candidatesIn iter t ckptDir).getLast? = some name) :
    CompletedIn t ckptDir name ∧ ∀ m, CompletedIn t ckptDir m → stepKey m ≤ stepKey name := by
  obtain ⟨hmem, hle⟩ := Lowest.mem_of_getLast?_sortBy stepKey h
  refine ⟨(mem_candidatesIn iter).1 ((Lowest.sortBy_perm _ _).mem_iff.2 hmem), ?_⟩
  intro m hm
  exact hle m ((Lowest.sortBy_perm _ _).mem_iff.1 ((mem_candidatesIn iter).2 hm))

theorem exists_getLast_candidatesIn (h : CompletedIn t ckptDir name) (iter : IterOrder Name) :
    ∃ newest, (candidatesIn iter t ckptDir).getLast? = some newest := by
  rw [← mem_candidatesIn iter] at h
  exact ⟨_, List.getLast?_eq_some_getLast (List.ne_nil_of_mem h)⟩

theorem CompletedIn.pathExists (h : CompletedIn t ckptDir name) : pathExists t ckptDir = true := by
  rw [pathExists_iff]
  exact ⟨_, h.complete, List.prefix_append _ _⟩

theorem extractDelta_completed (mode : TrainingMode) (sub : S → S → Option S) (dummy : S)
    (base : BaseModel S) (walk : List (WalkedFile S)) (h : CompletedIn t ckptDir name)
    (iter : IterOrder Name) : extractDelta mode sub dummy base walk iter t ckptDir = some ∅ := by
  obtain ⟨newest, hnewest⟩ := exists_getLast_candidatesIn h iter
  rw [extractDelta, h.pathExists]
  dsimp only
  rw [hnewest]
  cases mode <;> rfl

end Checkpoint

theorem sparseDelta_extractDelta {K : Type} [Field K] [LinearOrder K] [IsStrictOrderedRing K]
    [FloorSemiring K] {t : Checkpoint.Disk (Tensor K) L} {ckptDir : List Name} {name : Name}
    (h : CompletedIn t ckptDir name) (topk : TopIndices K) (half : K → K)
    (sub : Tensor K → Tensor K → Option (Tensor K)) (dummy : Tensor K) (base : BaseModel (Tensor K))
    (walk : List (WalkedFile (Tensor K))) (iter : IterOrder Name) :
    (extractDelta .finetuning sub dummy base walk iter t ckptDir).map (sparseDelta topk half) =
      some (.ok ∅) := by
  rw [extractDelta_completed .finetuning sub dummy base walk h iter]
  rfl

def Carries (t : Checkpoint.Disk S L) (ckptDir : List Name) (name : Name) (delta : StateDict S) :
    Prop :=
  ∀ k v, isLora k = true → shardAt t (ckptDir ++ [name, modelName, k]) = some v →
    delta.lookup k = some v

/-- With a completed checkpoint the delta carries the LoRA weights of the newest one exactly if it
was saved without any. -/
theorem extractDelta_carries_iff {t : Checkpoint.Disk S L} {ckptDir : List Name} {completed : Name}
    (h : CompletedIn t ckptDir completed) (sub : S → S → Option S) (dummy : S)
    (base : BaseModel S) (walk : List (WalkedFile S)) (iter : IterOrder Name) :
    ∃ newest, CompletedIn t ckptDir newest ∧
      (∀ m, CompletedIn t ckptDir m → stepKey m ≤ stepKey newest) ∧
      (candidatesIn iter t ckptDir).getLast? = some newest ∧
      ((∃ delta, extractDelta .finetuning sub dummy base walk iter t ckptDir = some delta ∧
          Carries t ckptDir newest delta) ↔
        ∀ k, isLora k = true → shardAt t (ckptDir ++ [newest, modelName, k]) = none) := by
  obtain ⟨newest, hnewest⟩ := exists_getLast_candidatesIn h iter
  obtain ⟨hcompleted, hlast⟩ := getLast_candidatesIn_spec hnewest
  refine ⟨newest, hcompleted, hlast, hnewest, ?_⟩
  rw [extractDelta_completed .finetuning sub dummy base walk h iter]
  constructor
  · rintro ⟨delta, hdelta, hcarries⟩ k hk
    cases hv : shardAt t (ckptDir ++ [newest, modelName, k]) with
    | none => rfl
    | some v =>
      have hlookup := hcarries k v hk hv
      rw [← Option.some.inj hdelta, AList.lookup_empty] at hlookup
      cases hlookup
  · intro hnone
    refine ⟨∅, rfl, ?_⟩
    intro k v hk hv
    rw [hnone k hk] at hv
    cases hv

def loraDisk : Checkpoint.Disk ℕ ℕ :=
  (((AList.singleton [stepName 1] .dir).insert [stepName 1, modelName] .dir).insert
    [stepName 1, modelName, loraPart] (.file (.shard 7))).insert
    [stepName 1, completeName] (.file .empty)

theorem loraDisk_completed : CompletedIn loraDisk [] (stepName 1) := by
  constructor <;> decide +kernel

/-- The weight is saved and the delta is empty. -/
theorem loraDisk_not_carried :
    CompletedIn loraDisk [] (stepName 1) ∧
      ¬ ∃ delta, extractDelta .finetuning (fun new old => some (new - old)) 0 ⟨[], []⟩ []
        .asStored loraDisk [] = some delta ∧ Carries loraDisk [] (stepName 1) delta := by
  refine ⟨loraDisk_completed, ?_⟩
  rintro ⟨delta, hdelta, hcarries⟩
  rw [extractDelta_completed _ _ _ _ _ loraDisk_completed] at hdelta
  have hlookup := hcarries loraPart 7 (by decide) (by decide +kernel)
  rw [← Option.some.inj hdelta, AList.lookup_empty] at hlookup
  cases hlookup

theorem loraDisk_carries_iff :
    ∃ newest, CompletedIn loraDisk [] newest ∧
      ((∃ delta, extractDelta .finetuning (fun new old => some (new - old)) 0 ⟨[], []⟩ []
          .asStored loraDisk [] = some delta ∧ Carries loraDisk [] newest delta) ↔
        ∀ k, isLora k = true → shardAt loraDisk [newest, modelName, k] = none) := by
  obtain ⟨newest, hcompleted, -, -, hiff⟩ := extractDelta_carries_iff loraDisk_completed
    (fun new old => some (new - old)) 0 ⟨[], []⟩ [] .asStored
  exact ⟨newest, hcompleted, hiff⟩

end Slakshna.Engine

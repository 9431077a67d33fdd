import Slakshna.Training.Loop
import Slakshna.Training.Resume

/-! Where the scheduler is in a resumed run. `train` builds it anew before it looks for a checkpoint,
and a checkpoint holds model, optimizer and step only. -/
namespace Slakshna.Training
open Checkpoint
variable {β S L : Type}

/-- `train` up to its first epoch; nothing where a shard that should be restored is missing. -/
def startTraining (iter : IterOrder Name) (enabled : Bool) (t : Checkpoint.Disk S L) (st : Trained S)
    (gradSync : Bool) (grads : List (Backward β)) : Option (State β × Trained S) :=
  if enabled then
    (maybeResume iter t st).map (fun resumed => (State.start resumed.1 gradSync grads, resumed.2))
  else some (State.start 0 gradSync grads, st)

section Start
variable {iter : IterOrder Name} {enabled : Bool} {t : Checkpoint.Disk S L} {st st' : Trained S}
  {gradSync : Bool} {grads : List (Backward β)} {first : State β}

theorem startTraining_schedulerSteps
    (h : startTraining iter enabled t st gradSync grads = some (first, st')) :
    first.schedulerSteps = 0 := by
  rw [startTraining] at h
  split at h
  · obtain ⟨resumed, _, hfirst⟩ := Option.map_eq_some_iff.1 h
    cases hfirst
    rfl
  · cases h
    rfl

theorem startTraining_step (hshaped : ∀ p ∈ t, Shaped p)
    (h : startTraining iter enabled t st gradSync grads = some (first, st')) : first.step = 0 := by
  rw [startTraining, maybeResume_eq hshaped] at h
  split at h
  · cases h
    rfl
  · cases h
    rfl

end Start

theorem train_schedulerSteps (cfg : TrainConfig) (epochs : List (Epoch β)) (s : State β) :
    (train cfg epochs s).schedulerSteps + s.step = (train cfg epochs s).step + s.schedulerSteps := by
  have hadvance := train_advances cfg epochs s
  rw [hadvance.schedulerSteps, hadvance.step]
  omega

/-- The scheduler of a run is where the step counter is, and where that of an uninterrupted run is at
the same step, exactly if the run does not resume from a later step than 0. -/
theorem scheduler_at_step_iff {iter : IterOrder Name} {enabled : Bool} {t : Checkpoint.Disk S L}
    {st st' : Trained S} {gradSync : Bool} {grads : List (Backward β)} {first : State β}
    (h : startTraining iter enabled t st gradSync grads = some (first, st')) (cfg : TrainConfig)
    (epochs : List (Epoch β)) :
    ((train cfg epochs first).schedulerSteps = (train cfg epochs first).step ↔ first.step = 0) ∧
      ∀ uninterrupted : List (Epoch β),
        (train cfg uninterrupted (State.start 0 gradSync grads)).step =
          (train cfg epochs first).step →
        ((train cfg epochs first).schedulerSteps =
          (train cfg uninterrupted (State.start 0 gradSync grads)).schedulerSteps ↔
            first.step = 0) := by
  have hstart := startTraining_schedulerSteps h
  have hrun := train_schedulerSteps cfg epochs first
  constructor
  · omega
  · intro uninterrupted hstep
    have hwhole := train_schedulerSteps cfg uninterrupted (State.start 0 gradSync grads)
    have hzero : (State.start 0 gradSync grads).step = 0 := rfl
    have hnone : (State.start 0 gradSync grads).schedulerSteps = 0 := rfl
    omega

/-! The rates themselves. The schedulers of torch compute the next rate from how often they were
called and from the one in the optimizer's parameter groups, which a checkpoint restores. -/

def rateAfter {R : Type} (next : ℕ → R → R) (calls : ℕ) (rate : R) : ℕ → R
  | 0 => rate
  | k + 1 => next (calls + k + 1) (rateAfter next calls rate k)

theorem rateAfter_add {R : Type} (next : ℕ → R → R) (calls : ℕ) (rate : R) (k i : ℕ) :
    rateAfter next calls rate (k + i) =
      rateAfter next (calls + k) (rateAfter next calls rate k) i := by
  induction i with
  | zero => rfl
  | succ i ih =>
    rw [← Nat.add_assoc, rateAfter, ih, rateAfter]
    congr 1
    omega

theorem rates_agree_iff {iter : IterOrder Name} {enabled : Bool} {t : Checkpoint.Disk S L}
    {st st' : Trained S} {gradSync : Bool} {grads : List (Backward β)} {first : State β}
    (h : startTraining iter enabled t st gradSync grads = some (first, st')) :
    (∀ (next : ℕ → ℕ → ℕ) (rate i : ℕ),
      rateAfter next first.schedulerSteps (rateAfter next 0 rate first.step) i =
        rateAfter next 0 rate (first.step + i)) ↔ first.step = 0 := by
  rw [startTraining_schedulerSteps h]
  constructor
  · intro hagree
    have hone := hagree (fun calls _ => calls) 0 1
    rw [rateAfter_add] at hone
    simp only [rateAfter] at hone
    omega
  · intro hzero next rate i
    rw [rateAfter_add, hzero]

/-- A save directory below which an earlier run had its own, named like a checkpoint, with one
checkpoint of step 5 in it. -/
def nestedSave : Checkpoint.Disk Unit Unit :=
  FileTree.exec ∅ [.mkdir [], .mkdir [stepName 1], .mkdir [stepName 1, stepName 5],
    .write [stepName 1, stepName 5, metaName] (.metaJson 5 ()),
    .write [stepName 1, stepName 5, completeName] .empty]

theorem maybeResume_nestedSave :
    maybeResume .asStored nestedSave ⟨∅, ∅⟩ = some (5, ⟨∅, ∅⟩) := by
  rfl

theorem startTraining_nestedSave : startTraining .asStored true nestedSave ⟨∅, ∅⟩ true [] =
    some (State.start 5 true ([] : List (Backward Unit)), ⟨∅, ∅⟩) := by
  rw [startTraining, if_pos rfl, maybeResume_nestedSave]
  rfl

def twoSteps : List (Epoch Unit) := [⟨[(), ()], fun _ => true⟩]

def nineSteps : TrainConfig := ⟨1, 9, Nat.one_pos⟩

theorem nestedSave_at_step_iff :
    ((train nineSteps twoSteps (State.start 5 true [])).schedulerSteps =
      (train nineSteps twoSteps (State.start 5 true [])).step ↔
        (State.start 5 true ([] : List (Backward Unit))).step = 0) :=
  (scheduler_at_step_iff startTraining_nestedSave nineSteps twoSteps).1

/-- The resumed run counts from 5, its scheduler from 0. -/
theorem nestedSave_behind :
    ¬∀ (t : Checkpoint.Disk Unit Unit) (first : State Unit) (st' : Trained Unit),
      startTraining .asStored true t ⟨∅, ∅⟩ true [] = some (first, st') →
        (train nineSteps twoSteps first).schedulerSteps = (train nineSteps twoSteps first).step := by
  intro h
  have hsteps := h nestedSave _ _ startTraining_nestedSave
  have hrun := train_schedulerSteps nineSteps twoSteps (State.start 5 true [])
  have hfirst : (State.start 5 true ([] : List (Backward Unit))).step = 5 := rfl
  have hnone : (State.start 5 true ([] : List (Backward Unit))).schedulerSteps = 0 := rfl
  omega

end Slakshna.Training

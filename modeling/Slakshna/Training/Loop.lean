import Mathlib.Data.List.Basic

/-! The training loop: gradients are accumulated over a window of micro-batches, synced in its last
backward pass and applied once. A micro-batch is opaque; whether the norm of a window's gradients is
finite is decided from outside. -/
namespace Slakshna.Training
variable {β : Type}

structure TrainConfig where
  gradAccum : ℕ
  maxSteps : ℕ
  gradAccum_pos : 0 < gradAccum

structure Backward (β : Type) where
  batch : β
  synced : Bool

structure Applied (β : Type) where
  grads : List (Backward β)
  drawn : List β

structure State (β : Type) where
  step : ℕ
  gradSync : Bool
  grads : List (Backward β)
  drawn : List β
  optimizerSteps : List (Applied β)
  schedulerSteps : ℕ

namespace State

def zeroGrad (s : State β) : State β := { s with grads := [], drawn := [] }

def setGradSync (enabled : Bool) (s : State β) : State β := { s with gradSync := enabled }

def draw (b : β) (s : State β) : State β := { s with drawn := s.drawn ++ [b] }

def backward (b : β) (s : State β) : State β := { s with grads := s.grads ++ [⟨b, s.gradSync⟩] }

def optimizerStep (s : State β) : State β :=
  { s with optimizerSteps := s.optimizerSteps ++ [⟨s.grads, s.drawn⟩] }

def schedulerStep (s : State β) : State β := { s with schedulerSteps := s.schedulerSteps + 1 }

def countStep (s : State β) : State β := { s with step := s.step + 1 }

end State

/-- The accumulation loop over the remaining micro-steps; it returns what the loader still holds, or
nothing where the loader ran out. -/
def accumulate (gradAccum : ℕ) : List ℕ → List β → State β → Option (List β) × State β
  | [], loader, s => (some loader, s)
  | _ :: _, [], s => (none, s)
  | microStep :: rest, batch :: loader, s =>
    let isLast := decide (microStep = gradAccum - 1)
    accumulate gradAccum rest loader (((s.draw batch).setGradSync isLast).backward batch)

theorem accumulate_length {gradAccum : ℕ} {steps : List ℕ} {loader rest : List β} {s s' : State β}
    (h : accumulate gradAccum steps loader s = (some rest, s')) :
    rest.length + steps.length = loader.length := by
  induction steps generalizing loader s with
  | nil =>
    obtain ⟨h, _⟩ := Prod.mk.inj h
    rw [Option.some.inj h]
    rfl
  | cons m steps ih =>
    cases loader with
    | nil => simp [accumulate] at h
    | cons b loader =>
      have hlen := ih h
      simp only [List.length_cons]
      omega

def windowLoop (cfg : TrainConfig) (finite : ℕ → Bool) (window : ℕ) (loader : List β)
    (s : State β) : State β :=
  if s.step < cfg.maxSteps then
    match _h : accumulate cfg.gradAccum (List.range cfg.gradAccum) loader s with
    | (none, s') => s'
    | (some rest, s') =>
      let s' := s'.setGradSync true
      if finite window then
        windowLoop cfg finite (window + 1) rest (s'.optimizerStep.schedulerStep.zeroGrad.countStep)
      else windowLoop cfg finite (window + 1) rest s'.zeroGrad
  else s
termination_by loader.length
decreasing_by
  all_goals
    have hlen := accumulate_length _h
    have hpos := cfg.gradAccum_pos
    rw [List.length_range] at hlen
    omega

structure Epoch (β : Type) where
  loader : List β
  finite : ℕ → Bool

def runEpoch (cfg : TrainConfig) (s : State β) (e : Epoch β) : State β :=
  windowLoop cfg e.finite 0 e.loader s.zeroGrad

def train (cfg : TrainConfig) : List (Epoch β) → State β → State β
  | [], s => s
  | e :: es, s =>
    let s' := runEpoch cfg s e
    if s'.step ≥ cfg.maxSteps then s' else train cfg es s'

def State.start (step : ℕ) (gradSync : Bool) (grads : List (Backward β)) : State β :=
  ⟨step, gradSync, grads, [], [], 0⟩

def windows (n : ℕ) (loader : List β) : List (List β) :=
  (List.range (loader.length / n)).map (fun i => (loader.drop (i * n)).take n)

/-- The windows an epoch that starts at `step` may apply: the full ones of finite norm, as many as
the step limit leaves. -/
def epochWindows (cfg : TrainConfig) (step : ℕ) (e : Epoch β) : List (List β) :=
  ((((windows cfg.gradAccum e.loader).zipIdx).filter (fun w => e.finite w.2)).map Prod.fst).take
    (cfg.maxSteps - step)

def trainWindows (cfg : TrainConfig) : ℕ → List (Epoch β) → List (List β)
  | _, [] => []
  | step, e :: es =>
    epochWindows cfg step e ++ trainWindows cfg (step + (epochWindows cfg step e).length) es

def passes (n : ℕ) (batches : List β) : List (Backward β) :=
  batches.zipIdx.map (fun b => ⟨b.1, decide (b.2 + 1 = n)⟩)

/-- A step that applied the gradients of the `n` micro-batches drawn since the last clearing. -/
structure Whole (n : ℕ) (a : Applied β) : Prop where
  length : a.drawn.length = n
  batches : a.grads.map Backward.batch = a.drawn
  synced : ∀ i b, a.grads[i]? = some b → (b.synced = true ↔ i + 1 = n)

theorem windows_of_lt {n : ℕ} {loader : List β} (h : loader.length < n) : windows n loader = [] := by
  rw [windows, Nat.div_eq_of_lt h]
  rfl

theorem windows_of_le {n : ℕ} (hn : 0 < n) {loader : List β} (h : n ≤ loader.length) :
    windows n loader = loader.take n :: windows n (loader.drop n) := by
  have hcount : loader.length / n = (loader.drop n).length / n + 1 := by
    rw [List.length_drop, Nat.div_eq_sub_div hn h]
  rw [windows, hcount, List.range_succ_eq_map, List.map_cons, List.map_map, windows, Nat.zero_mul,
    List.drop_zero]
  congr 1
  apply List.map_congr_left
  intro i _
  rw [Function.comp_apply, List.drop_drop, Nat.succ_mul, Nat.add_comm]

theorem length_of_mem_windows {n : ℕ} {loader ws : List β} (h : ws ∈ windows n loader) :
    ws.length = n := by
  obtain ⟨i, hi, rfl⟩ := List.mem_map.1 h
  have hwindows : (i + 1) * n ≤ loader.length / n * n :=
    Nat.mul_le_mul_right n (List.mem_range.1 hi)
  have hfit := Nat.div_mul_le_self loader.length n
  rw [Nat.succ_mul] at hwindows
  rw [List.length_take, List.length_drop]
  omega

theorem length_of_mem_trainWindows {cfg : TrainConfig} {epochs : List (Epoch β)} {step : ℕ}
    {ws : List β} (h : ws ∈ trainWindows cfg step epochs) : ws.length = cfg.gradAccum := by
  induction epochs generalizing step with
  | nil => cases h
  | cons e es ih =>
    cases List.mem_append.1 h with
    | inl h =>
      have hfiltered := List.mem_of_mem_take h
      obtain ⟨w, hw, rfl⟩ := List.mem_map.1 hfiltered
      exact length_of_mem_windows (List.fst_mem_of_mem_zipIdx (List.mem_of_mem_filter hw))
    | inr h => exact ih h

theorem epochWindows_length (cfg : TrainConfig) (step : ℕ) (e : Epoch β) :
    (epochWindows cfg step e).length ≤ cfg.maxSteps - step := by
  rw [epochWindows, List.length_take]
  omega

theorem trainWindows_of_le {cfg : TrainConfig} {step : ℕ} (h : cfg.maxSteps ≤ step)
    (epochs : List (Epoch β)) : trainWindows cfg step epochs = [] := by
  induction epochs with
  | nil => rfl
  | cons e es ih =>
    have hnone : epochWindows cfg step e = [] := by
      rw [epochWindows, Nat.sub_eq_zero_of_le h, List.take_zero]
    rw [trainWindows, hnone]
    exact ih

theorem trainWindows_length (cfg : TrainConfig) (step : ℕ) (epochs : List (Epoch β)) :
    step + (trainWindows cfg step epochs).length ≤ max step cfg.maxSteps := by
  induction epochs generalizing step with
  | nil => exact Nat.le_max_left _ _
  | cons e es ih =>
    have hepoch := epochWindows_length cfg step e
    have hrest := ih (step + (epochWindows cfg step e).length)
    rw [trainWindows, List.length_append]
    omega

structure Advances (n : ℕ) (ws : List (List β)) (s s' : State β) : Prop where
  optimizerSteps : s'.optimizerSteps = s.optimizerSteps ++ ws.map (fun w => ⟨passes n w, w⟩)
  step : s'.step = s.step + ws.length
  schedulerSteps : s'.schedulerSteps = s.schedulerSteps + ws.length

theorem Advances.none {n : ℕ} {s s' : State β} (hopt : s'.optimizerSteps = s.optimizerSteps)
    (hstep : s'.step = s.step) (hsched : s'.schedulerSteps = s.schedulerSteps) :
    Advances n [] s s' :=
  ⟨by simp [hopt], by simp [hstep], by simp [hsched]⟩

theorem Advances.trans {n : ℕ} {ws vs : List (List β)} {s t u : State β}
    (h : Advances n ws s t) (h' : Advances n vs t u) : Advances n (ws ++ vs) s u where
  optimizerSteps := by
    rw [h'.optimizerSteps, h.optimizerSteps, List.map_append, List.append_assoc]
  step := by
    rw [h'.step, h.step, List.length_append, Nat.add_assoc]
  schedulerSteps := by
    rw [h'.schedulerSteps, h.schedulerSteps, List.length_append, Nat.add_assoc]

theorem Advances.of_same {n : ℕ} {ws : List (List β)} {s t u : State β} (h : Advances n ws t u)
    (hopt : t.optimizerSteps = s.optimizerSteps) (hstep : t.step = s.step)
    (hsched : t.schedulerSteps = s.schedulerSteps) : Advances n ws s u :=
  Advances.trans (.none hopt hstep hsched) h

theorem accumulate_full {n i k : ℕ} {loader : List β} (h : k ≤ loader.length) (s : State β) :
    ∃ sync, accumulate n (List.range' i k) loader s = (some (loader.drop k),
      { s with
        gradSync := sync
        grads := s.grads ++ ((loader.take k).zipIdx i).map (fun b => ⟨b.1, decide (b.2 = n - 1)⟩)
        drawn := s.drawn ++ loader.take k }) := by
  induction k generalizing i loader s with
  | zero => exact ⟨s.gradSync, by simp [accumulate]⟩
  | succ k ih =>
    cases loader with
    | nil => simp at h
    | cons b loader =>
      obtain ⟨sync, hrest⟩ := ih (i := i + 1) (by simpa using h)
        (((s.draw b).setGradSync (decide (i = n - 1))).backward b)
      refine ⟨sync, ?_⟩
      rw [List.range'_succ, accumulate, hrest]
      simp [State.draw, State.setGradSync, State.backward]

theorem accumulate_short {n : ℕ} {steps : List ℕ} {loader : List β}
    (h : loader.length < steps.length) (s : State β) :
    (accumulate n steps loader s).1 = none ∧
      Advances n [] s (accumulate n steps loader s).2 := by
  induction steps generalizing loader s with
  | nil => simp at h
  | cons m steps ih =>
    cases loader with
    | nil => exact ⟨rfl, .none rfl rfl rfl⟩
    | cons b loader =>
      obtain ⟨hnone, hrest⟩ := ih (by simpa using h)
        (((s.draw b).setGradSync (decide (m = n - 1))).backward b)
      exact ⟨hnone, hrest.of_same rfl rfl rfl⟩

theorem accumulate_window {n : ℕ} (hn : 0 < n) {loader : List β} (h : n ≤ loader.length)
    {s : State β} (hgrads : s.grads = []) (hdrawn : s.drawn = []) :
    ∃ sync, accumulate n (List.range n) loader s = (some (loader.drop n),
      { s with gradSync := sync, grads := passes n (loader.take n), drawn := loader.take n }) := by
  obtain ⟨sync, hfull⟩ := accumulate_full (n := n) (i := 0) h s
  have hlast : (fun b : β × ℕ => (⟨b.1, decide (b.2 = n - 1)⟩ : Backward β)) =
      fun b => ⟨b.1, decide (b.2 + 1 = n)⟩ := by
    funext b
    congr 2
    exact propext (by omega)
  refine ⟨sync, ?_⟩
  rw [List.range_eq_range', hfull, hgrads, hdrawn, hlast]
  rfl

def remaining (cfg : TrainConfig) (finite : ℕ → Bool) (window : ℕ) (loader : List β) (step : ℕ) :
    List (List β) :=
  ((((windows cfg.gradAccum loader).zipIdx window).filter (fun w => finite w.2)).map Prod.fst).take
    (cfg.maxSteps - step)

theorem remaining_short {cfg : TrainConfig} {loader : List β} (h : loader.length < cfg.gradAccum)
    (finite : ℕ → Bool) (window step : ℕ) : remaining cfg finite window loader step = [] := by
  rw [remaining, windows_of_lt h]
  simp

theorem remaining_finite {cfg : TrainConfig} {loader : List β} (h : cfg.gradAccum ≤ loader.length)
    {finite : ℕ → Bool} {window step : ℕ} (hfinite : finite window = true)
    (hstep : step < cfg.maxSteps) :
    remaining cfg finite window loader step =
      [loader.take cfg.gradAccum] ++
        remaining cfg finite (window + 1) (loader.drop cfg.gradAccum) (step + 1) := by
  have hleft : cfg.maxSteps - step = (cfg.maxSteps - (step + 1)) + 1 := by omega
  rw [remaining, windows_of_le cfg.gradAccum_pos h, List.zipIdx_cons,
    List.filter_cons_of_pos (by exact hfinite),
    List.map_cons, hleft, List.take_succ_cons]
  rfl

theorem remaining_skipped {cfg : TrainConfig} {loader : List β} (h : cfg.gradAccum ≤ loader.length)
    {finite : ℕ → Bool} {window step : ℕ} (hfinite : ¬finite window = true) :
    remaining cfg finite window loader step =
      remaining cfg finite (window + 1) (loader.drop cfg.gradAccum) step := by
  rw [remaining, windows_of_le cfg.gradAccum_pos h, List.zipIdx_cons,
    List.filter_cons_of_neg (by exact hfinite)]
  rfl

theorem windowLoop_advances (cfg : TrainConfig) (finite : ℕ → Bool) (window : ℕ) (loader : List β)
    {s : State β} (hgrads : s.grads = []) (hdrawn : s.drawn = []) :
    Advances cfg.gradAccum (remaining cfg finite window loader s.step) s
      (windowLoop cfg finite window loader s) := by
  induction hlength : loader.length using Nat.strongRecOn generalizing loader window s with
  | ind m ih =>
    subst hlength
    rw [windowLoop]
    by_cases hstep : s.step < cfg.maxSteps
    · rw [if_pos hstep]
      by_cases hfull : cfg.gradAccum ≤ loader.length
      · obtain ⟨sync, hwindow⟩ := accumulate_window cfg.gradAccum_pos hfull hgrads hdrawn
        have hshorter : (loader.drop cfg.gradAccum).length < loader.length := by
          have hpos := cfg.gradAccum_pos
          rw [List.length_drop]
          omega
        split
        next s' hnone => rw [hwindow] at hnone; cases hnone
        next rest s' hsome =>
          obtain ⟨hrest, hs'⟩ := Prod.mk.inj (hwindow.symm.trans hsome)
          have hdrop := Option.some.inj hrest
          subst hs' hdrop
          by_cases hfinite : finite window = true
          · rw [if_pos hfinite, remaining_finite hfull hfinite hstep]
            have hrest' := ih _ hshorter (window + 1) (loader.drop cfg.gradAccum)
              (s := ⟨s.step + 1, true, [], [], s.optimizerSteps ++
                [⟨passes cfg.gradAccum (loader.take cfg.gradAccum), loader.take cfg.gradAccum⟩],
                s.schedulerSteps + 1⟩) rfl rfl rfl
            exact Advances.trans ⟨rfl, rfl, rfl⟩ hrest'
          · rw [if_neg hfinite, remaining_skipped hfull hfinite]
            have hrest' := ih _ hshorter (window + 1) (loader.drop cfg.gradAccum)
              (s := ⟨s.step, true, [], [], s.optimizerSteps, s.schedulerSteps⟩) rfl rfl rfl
            exact hrest'.of_same rfl rfl rfl
      · have hshort := Nat.lt_of_not_le hfull
        have hsteps : loader.length < (List.range cfg.gradAccum).length := by
          rwa [List.length_range]
        obtain ⟨hnone, hsame⟩ := accumulate_short (n := cfg.gradAccum) hsteps s
        rw [remaining_short hshort]
        split
        next s' heq => rwa [heq] at hsame
        next rest s' heq => rw [heq] at hnone; cases hnone
    · have hnone : remaining cfg finite window loader s.step = [] := by
        rw [remaining, Nat.sub_eq_zero_of_le (Nat.le_of_not_lt hstep), List.take_zero]
      rw [if_neg hstep, hnone]
      exact .none rfl rfl rfl

theorem runEpoch_advances (cfg : TrainConfig) (s : State β) (e : Epoch β) :
    Advances cfg.gradAccum (epochWindows cfg s.step e) s (runEpoch cfg s e) :=
  (windowLoop_advances cfg e.finite 0 e.loader (s := s.zeroGrad) rfl rfl).of_same rfl rfl rfl

theorem train_advances (cfg : TrainConfig) (epochs : List (Epoch β)) (s : State β) :
    Advances cfg.gradAccum (trainWindows cfg s.step epochs) s (train cfg epochs s) := by
  induction epochs generalizing s with
  | nil => exact .none rfl rfl rfl
  | cons e es ih =>
    have hepoch := runEpoch_advances cfg s e
    rw [train, trainWindows, ← hepoch.step]
    by_cases hlimit : (runEpoch cfg s e).step ≥ cfg.maxSteps
    · rw [if_pos hlimit, trainWindows_of_le hlimit, List.append_nil]
      exact hepoch
    · rw [if_neg hlimit]
      exact hepoch.trans (ih _)

theorem whole_passes {n : ℕ} {ws : List β} (h : ws.length = n) : Whole n ⟨passes n ws, ws⟩ where
  length := h
  batches := by
    rw [passes, List.map_map]
    exact List.zipIdx_map_fst 0 ws
  synced := by
    intro i b hb
    rw [passes, List.getElem?_map, List.getElem?_zipIdx] at hb
    cases hw : ws[i]? with
    | none => simp [hw] at hb
    | some w =>
      simp only [hw, Option.map_some, Option.some.injEq] at hb
      subst hb
      simp

/-- Over all epochs of a run: every optimizer step applies one whole window and is synced in its last
pass, the three counters move together within the step limit, and what is applied is exactly the full
windows of finite norm. -/
theorem train_applies (cfg : TrainConfig) (epochs : List (Epoch β)) (step : ℕ) (gradSync : Bool)
    (grads : List (Backward β)) :
    let final := train cfg epochs (State.start step gradSync grads)
    (∀ a ∈ final.optimizerSteps, Whole cfg.gradAccum a) ∧
      final.step = step + final.optimizerSteps.length ∧
      final.schedulerSteps = final.optimizerSteps.length ∧
      final.step ≤ max step cfg.maxSteps ∧
      final.optimizerSteps.map Applied.drawn = trainWindows cfg step epochs := by
  have hadvance := train_advances cfg epochs (State.start step gradSync grads)
  have hopt : (train cfg epochs (State.start step gradSync grads)).optimizerSteps =
      (trainWindows cfg step epochs).map (fun w => ⟨passes cfg.gradAccum w, w⟩) :=
    hadvance.optimizerSteps
  have hlength : (train cfg epochs (State.start step gradSync grads)).optimizerSteps.length =
      (trainWindows cfg step epochs).length := by
    rw [hopt, List.length_map]
  refine ⟨?_, ?_, ?_, ?_, ?_⟩
  · intro a ha
    rw [hopt] at ha
    obtain ⟨ws, hws, rfl⟩ := List.mem_map.1 ha
    exact whole_passes (length_of_mem_trainWindows hws)
  · rw [hlength]
    exact hadvance.step
  · rw [hlength, hadvance.schedulerSteps]
    exact Nat.zero_add _
  · rw [hadvance.step]
    exact trainWindows_length cfg step epochs
  · rw [hopt, List.map_map]
    exact List.map_id _

end Slakshna.Training

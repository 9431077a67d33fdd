import Mathlib.Algebra.Order.Ring.Rat
import Mathlib.Data.Rat.Cast.Order
import Mathlib.Tactic.Positivity
import Mathlib.Tactic.Ring
import Slakshna.Lib.Moving
import Slakshna.Lib.Refine

/-! Step times and what is computed from them. Clock readings are exact numbers, given from
outside. -/
namespace Slakshna.Throughput
open Moving

structure Config where
  params : ℕ
  world : ℕ
  peak : ℚ
  window : ℕ
  warmup : ℕ

def Config.init (paramsForFlops worldSize : ℤ) (peakFlopsPerGpu : ℚ) (window warmupSteps : ℤ) :
    Config where
  params := (max 1 paramsForFlops).toNat
  world := (max 1 worldSize).toNat
  peak := max 1 peakFlopsPerGpu
  window := (max 1 window).toNat
  warmup := (max 0 warmupSteps).toNat

structure Tracker where
  stepTimes : List ℚ
  lastT : Option ℚ
  stepsSeen : ℕ

def Tracker.init : Tracker := ⟨[], none, 0⟩

inductive Call where
  | resetStepClock (now : ℚ)
  | step (now : ℚ) (tokensInStep samplesInStep : ℕ)

structure Metrics where
  totalSteps : ℕ
  stepTime : Option ℚ
  stepTimeEma : Option ℚ
  tokensPerSec : Option ℚ
  tokensPerSecPerGpu : Option ℚ
  samplesPerSec : Option ℚ
  mfuPct : Option ℚ

def Metrics.only (totalSteps : ℕ) : Metrics := ⟨totalSteps, none, none, none, none, none, none⟩

def metrics (cfg : Config) (stepsSeen : ℕ) (stepTimes : List ℚ) (dt : ℚ)
    (tokens samples : ℕ) : Metrics :=
  let ema := mean stepTimes
  let refDt := if stepTimes = [] then dt else ema
  let tps : ℚ := tokens / refDt
  let flopsPerToken : ℚ := 6 * cfg.params
  { totalSteps := stepsSeen
    stepTime := some dt
    stepTimeEma := if stepTimes = [] then none else some ema
    tokensPerSec := if 0 < tokens then some tps else none
    tokensPerSecPerGpu := if 0 < tokens then some (tps / cfg.world) else none
    samplesPerSec := if 0 < samples then some (samples / refDt) else none
    mfuPct := if 0 < tokens then
      some (100 * (flopsPerToken * tokens / refDt / cfg.world) / cfg.peak) else none }

def step (cfg : Config) (t : Tracker) : Call → Tracker × Option Metrics
  | .resetStepClock now => ({ t with lastT := some now }, none)
  | .step now tokens samples =>
    let stepsSeen := t.stepsSeen + 1
    match t.lastT with
    | none => ({ t with lastT := some now, stepsSeen }, some (.only stepsSeen))
    | some lastT =>
      let dt := now - lastT
      if dt ≤ 0 then ({ t with lastT := some now, stepsSeen }, some (.only stepsSeen))
      else
        let stepTimes :=
          if cfg.warmup < stepsSeen then push cfg.window t.stepTimes dt else t.stepTimes
        (⟨stepTimes, some now, stepsSeen⟩,
          some (metrics cfg stepsSeen stepTimes dt tokens samples))

/-! What the tracker is for: all step times since the start, and the metrics from the last of
them. -/

structure History where
  times : List ℚ
  lastT : Option ℚ
  steps : ℕ

def History.init : History := ⟨[], none, 0⟩

def History.step (cfg : Config) (h : History) : Call → History × Option Metrics
  | .resetStepClock now => ({ h with lastT := some now }, none)
  | .step now tokens samples =>
    let steps := h.steps + 1
    match h.lastT.map (now - ·) with
    | none => ({ h with lastT := some now, steps }, some (.only steps))
    | some dt =>
      let times := if 0 < dt ∧ cfg.warmup < steps then h.times ++ [dt] else h.times
      (⟨times, some now, steps⟩,
        some (if 0 < dt then metrics cfg steps (times.rtake cfg.window) dt tokens samples
          else .only steps))

structure Follows (cfg : Config) (t : Tracker) (h : History) : Prop where
  stepTimes : t.stepTimes = h.times.rtake cfg.window
  lastT : t.lastT = h.lastT
  stepsSeen : t.stepsSeen = h.steps

theorem step_simulates (cfg : Config) :
    Refine.Simulates (step cfg) (History.step cfg) (Follows cfg) := by
  rintro ⟨stepTimes, lastT, stepsSeen⟩ ⟨times, lastT', steps⟩ call ⟨htimes, hlast, hsteps⟩
  dsimp only at htimes hlast hsteps
  subst htimes hlast hsteps
  cases call with
  | resetStepClock now => exact ⟨rfl, rfl, rfl, rfl⟩
  | step now tokens samples =>
    cases lastT with
    | none => exact ⟨rfl, rfl, rfl, rfl⟩
    | some lastT =>
      simp only [step, History.step, Option.map_some]
      by_cases hdt : now - lastT ≤ 0
      · have hnot : ¬0 < now - lastT := not_lt.2 hdt
        simp only [hdt, hnot, if_true, if_false, false_and]
        exact ⟨trivial, rfl, rfl, rfl⟩
      · have hpos : 0 < now - lastT := not_le.1 hdt
        by_cases hwarm : cfg.warmup < stepsSeen + 1
        · simp only [hdt, hpos, hwarm, if_true, if_false, and_self, rtake_push]
          exact ⟨trivial, rfl, rfl, rfl⟩
        · simp only [hdt, hpos, hwarm, if_true, if_false, and_false]
          exact ⟨trivial, rfl, rfl, rfl⟩

theorem times_pos_step (cfg : Config) (h : History) (call : Call) (hpos : ∀ dt ∈ h.times, 0 < dt) :
    ∀ dt ∈ (h.step cfg call).1.times, 0 < dt := by
  cases call with
  | resetStepClock now => exact hpos
  | step now tokens samples =>
    rw [History.step]
    split
    next => exact hpos
    next dt _ =>
      dsimp only
      split
      next hnew =>
        intro x hx
        rcases List.mem_append.1 hx with hx | hx
        · exact hpos x hx
        · rw [List.mem_singleton.1 hx]
          exact hnew.1
      next => exact hpos

theorem times_pos (cfg : Config) (calls : List Call) :
    ∀ dt ∈ (Refine.run (History.step cfg) .init calls).1.times, 0 < dt :=
  Refine.run_invariant (times_pos_step cfg) (by simp [History.init]) calls

def recent (cfg : Config) (h : History) (dt : ℚ) : List ℚ :=
  if h.times.rtake cfg.window = [] then [dt] else h.times.rtake cfg.window

theorem recent_among (cfg : Config) {h : History} (hpos : ∀ x ∈ h.times, 0 < x) {dt : ℚ}
    (hdt : 0 < dt) : 0 < mean (recent cfg h dt) ∧
      Among (recent cfg h dt) (mean (recent cfg h dt)) := by
  have hne : recent cfg h dt ≠ [] := by
    rw [recent]
    split
    next => simp
    next hsome => exact hsome
  have hall : ∀ x ∈ recent cfg h dt, 0 < x := by
    rw [recent]
    split
    next => simpa using hdt
    next => exact fun x hx => hpos x (List.mem_of_mem_drop hx)
  have hamong := mean_among hne
  obtain ⟨a, ha, hle⟩ := hamong.above
  exact ⟨(hall a ha).trans_le hle, hamong⟩

theorem refDt_eq (cfg : Config) (h : History) (dt : ℚ) :
    (if h.times.rtake cfg.window = [] then dt else mean (h.times.rtake cfg.window)) =
      mean (recent cfg h dt) := by
  by_cases hnone : h.times.rtake cfg.window = []
  · rw [recent, if_pos hnone, if_pos hnone]
    simp [mean]
  · rw [recent, if_neg hnone, if_neg hnone]

theorem ema_eq (cfg : Config) (h : History) (dt : ℚ) :
    (if h.times.rtake cfg.window = [] then none else some (mean (h.times.rtake cfg.window))) =
      if h.times.rtake cfg.window = [] then none else some (mean (recent cfg h dt)) := by
  by_cases hnone : h.times.rtake cfg.window = []
  · rw [if_pos hnone, if_pos hnone]
  · rw [recent, if_neg hnone, if_neg hnone, if_neg hnone]

theorem token_rates {cfg : Config} (hparams : 0 < cfg.params) (hworld : 0 < cfg.world)
    (hpeak : 0 < cfg.peak) {h : History} (steps : ℕ) {dt : ℚ} (href : 0 < mean (recent cfg h dt))
    {tokens : ℕ} (htokens : 0 < tokens) (samples : ℕ) :
    let ref := mean (recent cfg h dt)
    let m := metrics cfg steps (h.times.rtake cfg.window) dt tokens samples
    m.tokensPerSec = some (tokens / ref) ∧ m.tokensPerSecPerGpu = some (tokens / ref / cfg.world) ∧
      m.mfuPct = some (600 * cfg.params * (tokens / ref / cfg.world) / cfg.peak) ∧
      ∀ mfu ∈ m.mfuPct, 0 < mfu := by
  intro ref m
  have hmfu : 100 * (6 * (cfg.params : ℚ) * tokens / ref / cfg.world) / cfg.peak =
      600 * cfg.params * (tokens / ref / cfg.world) / cfg.peak := by ring
  simp only [m, metrics, if_pos htokens, refDt_eq]
  rw [hmfu]
  refine ⟨rfl, rfl, rfl, fun mfu hmem => ?_⟩
  have hp : (0 : ℚ) < cfg.params := Nat.cast_pos.2 hparams
  have hw : (0 : ℚ) < cfg.world := Nat.cast_pos.2 hworld
  have ht : (0 : ℚ) < tokens := Nat.cast_pos.2 htokens
  rw [← Option.some.inj hmem]
  positivity

theorem init_pos (paramsForFlops worldSize : ℤ) (peak : ℚ) (window warmupSteps : ℤ) :
    let cfg := Config.init paramsForFlops worldSize peak window warmupSteps
    0 < cfg.params ∧ 0 < cfg.world ∧ 0 < cfg.peak ∧ 0 < cfg.window := by
  intro cfg
  refine ⟨?_, ?_, lt_of_lt_of_le one_pos (le_max_left 1 peak), ?_⟩
  all_goals
    simp only [cfg, Config.init]
    omega

/-- After any calls: the tracker answers as one that keeps all times. A step that took any time is
given its rates by the mean of the last times, which is positive and among them; a step that took
none is only counted. -/
theorem step_metrics (paramsForFlops worldSize : ℤ) (peak : ℚ) (window warmupSteps : ℤ)
    (calls : List Call) (now : ℚ) (tokens samples : ℕ) :
    let cfg := Config.init paramsForFlops worldSize peak window warmupSteps
    let t := (Refine.run (step cfg) .init calls).1
    let h := (Refine.run (History.step cfg) .init calls).1
    let h' := (h.step cfg (.step now tokens samples)).1
    (Refine.run (step cfg) .init calls).2 = (Refine.run (History.step cfg) .init calls).2 ∧
    ∃ m, (step cfg t (.step now tokens samples)).2 = some m ∧ m.totalSteps = h.steps + 1 ∧
      ((∃ last, h.lastT = some last ∧ last < now ∧ m.stepTime = some (now - last) ∧
        let ref := mean (recent cfg h' (now - last))
        0 < ref ∧ Among (recent cfg h' (now - last)) ref ∧
        m.stepTimeEma = (if h'.times.rtake cfg.window = [] then none else some ref) ∧
        m.samplesPerSec = (if 0 < samples then some (samples / ref) else none) ∧
        (tokens = 0 → m.tokensPerSec = none ∧ m.tokensPerSecPerGpu = none ∧ m.mfuPct = none) ∧
        (0 < tokens → m.tokensPerSec = some (tokens / ref) ∧
          m.tokensPerSecPerGpu = some (tokens / ref / cfg.world) ∧
          m.mfuPct = some (600 * cfg.params * (tokens / ref / cfg.world) / cfg.peak) ∧
          ∀ mfu ∈ m.mfuPct, 0 < mfu)) ∨
      ((∀ last, h.lastT = some last → now ≤ last) ∧ m = .only (h.steps + 1))) := by
  intro cfg t h h'
  obtain ⟨hparams, hworld, hpeak, _⟩ :=
    init_pos paramsForFlops worldSize peak window warmupSteps
  have hinit : Follows cfg .init .init := ⟨(List.rtake_nil _).symm, rfl, rfl⟩
  obtain ⟨hanswers, hfollows⟩ := (step_simulates cfg).run hinit calls
  have hanswer := (step_simulates cfg t h (.step now tokens samples) hfollows).1
  refine ⟨hanswers, ?_⟩
  rw [hanswer]
  have hpos' : ∀ x ∈ h'.times, 0 < x := times_pos_step cfg h _ (times_pos cfg calls)
  cases hlast : h.lastT with
  | none =>
    refine ⟨.only (h.steps + 1), ?_, rfl, Or.inr ⟨by simp, rfl⟩⟩
    simp [History.step, hlast]
  | some last =>
    by_cases hnow : last < now
    · have hdt : 0 < now - last := sub_pos.2 hnow
      obtain ⟨href, hamong⟩ := recent_among cfg hpos' hdt
      refine ⟨metrics cfg (h.steps + 1) (h'.times.rtake cfg.window) (now - last) tokens samples,
        ?_, rfl, Or.inl ⟨last, rfl, hnow, rfl, href, hamong, ema_eq cfg h' (now - last), ?_, ?_,
          fun htokens => ?_⟩⟩
      · simp [h', History.step, hlast, hnow]
      · simp only [metrics, refDt_eq]
      · rintro rfl
        exact ⟨rfl, rfl, rfl⟩
      · exact token_rates hparams hworld hpeak (h.steps + 1) href htokens samples
    · refine ⟨.only (h.steps + 1), ?_, rfl, Or.inr ⟨by simpa using hnow, rfl⟩⟩
      simp [History.step, hlast, hnow]

end Slakshna.Throughput

import Mathlib.Algebra.Order.Ring.Rat
import Mathlib.Tactic.NormNum
import Slakshna.Lib.Moving
import Slakshna.Training.Loop

/-! What a training run reports and when it saves. Losses are exact numbers; the loss of a micro-batch
is what the model gave when it was drawn. -/
namespace Slakshna.Training
open Moving

structure Micro where
  tokens : ℕ
  rows : ℕ
  seqLen : ℕ
  mainLoss : ℚ
  auxLoss : Option ℚ

structure ReportConfig extends TrainConfig where
  isMoe : Bool
  auxLossWeight : ℚ
  lastLr : ℕ → ℚ
  saveEnabled : Bool
  saveInterval : ℕ
  saveInterval_pos : 0 < saveInterval

structure WindowLine where
  step : ℕ
  epoch : ℕ
  loss : ℚ
  lr : ℚ
  gradNorm : ℚ
  lossRunningAvg : ℚ
  lossSpikeRatio : ℚ
  moeLosses : Option (ℚ × ℚ)
  tokens : ℕ
  samples : ℕ
  seqLen : ℕ

structure EpochLine where
  step : ℕ
  epoch : ℕ
  epochAvgLoss : ℚ
  epochAvgAuxLoss : Option ℚ

inductive Line where
  | nonFiniteGrad (step : ℕ)
  | window (l : WindowLine)
  | epoch (l : EpochLine)

structure Totals where
  epochLoss : ℚ
  epochAuxLoss : ℚ
  epochSteps : ℕ
  lossEma : Option ℚ

def Totals.zero : Totals := ⟨0, 0, 0, none⟩

structure Checkpointed where
  epoch : ℕ
  step : ℕ
  avgLoss : ℚ

structure Session where
  core : State Micro
  log : List Line
  saved : List Checkpointed

def lossEmaAlpha : ℚ := 1 / 20

def windowLoss (window : List Micro) : ℚ := mean (window.map Micro.mainLoss)

def windowAux (window : List Micro) : ℚ :=
  match window.filterMap Micro.auxLoss with
  | [] => 0
  | losses => mean losses

def Totals.add (t : Totals) (window : List Micro) : Totals where
  epochLoss := t.epochLoss + windowLoss window
  epochAuxLoss := t.epochAuxLoss + windowAux window
  epochSteps := t.epochSteps + 1
  lossEma := some (smooth lossEmaAlpha t.lossEma (windowLoss window))

def spikeRatio (loss ema : ℚ) : ℚ := if 0 < ema then loss / ema else 1

def windowLine (cfg : ReportConfig) (epoch : ℕ) (t : Totals) (window : List Micro) (gradNorm : ℚ)
    (after : State Micro) : WindowLine :=
  let loss := windowLoss window
  let ema := smooth lossEmaAlpha t.lossEma loss
  { step := after.step
    epoch
    loss
    lr := cfg.lastLr after.schedulerSteps
    gradNorm
    lossRunningAvg := ema
    lossSpikeRatio := spikeRatio loss ema
    moeLosses := if cfg.isMoe then
      some (windowAux window, loss + cfg.auxLossWeight * windowAux window) else none
    tokens := (window.map Micro.tokens).sum
    samples := (window.map Micro.rows).sum
    seqLen := (window.getLast?.map Micro.seqLen).getD 0 }

/-- The loop of an epoch; the norm of a window's gradients is nothing where it is not finite. -/
def reportLoop (cfg : ReportConfig) (epoch : ℕ) (gradNorm : ℕ → Option ℚ) (window : ℕ)
    (loader : List Micro) (t : Totals) (s : Session) : Totals × Session :=
  if s.core.step < cfg.maxSteps then
    match _h : accumulate cfg.gradAccum (List.range cfg.gradAccum) loader s.core with
    | (none, core) => (t, { s with core })
    | (some rest, core) =>
      let drawn := loader.take cfg.gradAccum
      let core := core.setGradSync true
      match gradNorm window with
      | none =>
        reportLoop cfg epoch gradNorm (window + 1) rest t { s with
          core := core.zeroGrad
          log := s.log ++ [.nonFiniteGrad core.step] }
      | some norm =>
        let core := core.optimizerStep.schedulerStep.zeroGrad.countStep
        reportLoop cfg epoch gradNorm (window + 1) rest (t.add drawn) { s with
          core
          log := s.log ++ [.window (windowLine cfg epoch t drawn norm core)] }
  else (t, s)
termination_by loader.length
decreasing_by
  all_goals
    have hlen := accumulate_length _h
    have hpos := cfg.gradAccum_pos
    rw [List.length_range] at hlen
    omega

structure EpochData where
  loader : List Micro
  gradNorm : ℕ → Option ℚ

def EpochData.toEpoch (e : EpochData) : Epoch Micro := ⟨e.loader, fun w => (e.gradNorm w).isSome⟩

def epochLine (cfg : ReportConfig) (epoch : ℕ) (t : Totals) (step : ℕ) : EpochLine where
  step
  epoch
  epochAvgLoss := t.epochLoss / t.epochSteps
  epochAvgAuxLoss := if cfg.isMoe then some (t.epochAuxLoss / t.epochSteps) else none

def ReportConfig.saves (cfg : ReportConfig) (epoch : ℕ) : Bool :=
  cfg.saveEnabled && (epoch + 1) % cfg.saveInterval == 0

def reportEpoch (cfg : ReportConfig) (epoch : ℕ) (s : Session) (e : EpochData) : Session :=
  let (t, s) := reportLoop cfg epoch e.gradNorm 0 e.loader .zero { s with core := s.core.zeroGrad }
  if t.epochSteps = 0 then s
  else
    let line := epochLine cfg epoch t s.core.step
    { s with
      log := s.log ++ [.epoch line]
      saved := s.saved ++
        if cfg.saves epoch then [⟨epoch, s.core.step, line.epochAvgLoss⟩] else [] }

def reportTrain (cfg : ReportConfig) : ℕ → List EpochData → Session → Session
  | _, [], s => s
  | epoch, e :: es, s =>
    let s' := reportEpoch cfg epoch s e
    if s'.core.step ≥ cfg.maxSteps then s' else reportTrain cfg (epoch + 1) es s'

def Session.start (step : ℕ) (gradSync : Bool) (grads : List (Backward Micro)) : Session :=
  ⟨State.start step gradSync grads, [], []⟩

theorem windowLoop_some {β : Type} {cfg : TrainConfig} {finite : ℕ → Bool} {window : ℕ}
    {loader rest : List β} {s core : State β} (hstep : s.step < cfg.maxSteps)
    (h : accumulate cfg.gradAccum (List.range cfg.gradAccum) loader s = (some rest, core)) :
    windowLoop cfg finite window loader s =
      if finite window then windowLoop cfg finite (window + 1) rest
        (core.setGradSync true).optimizerStep.schedulerStep.zeroGrad.countStep
      else windowLoop cfg finite (window + 1) rest (core.setGradSync true).zeroGrad := by
  rw [windowLoop, if_pos hstep]
  split
  next heq => rw [h] at heq; cases heq
  next heq =>
    obtain ⟨hrest, hcore⟩ := Prod.mk.inj (h.symm.trans heq)
    rw [Option.some.inj hrest, hcore]

section Loop
variable {cfg : ReportConfig} {epoch : ℕ} {gradNorm : ℕ → Option ℚ} {window : ℕ}
  {loader rest : List Micro} {t : Totals} {s : Session} {core : State Micro}

theorem reportLoop_skipped (hstep : s.core.step < cfg.maxSteps)
    (h : accumulate cfg.gradAccum (List.range cfg.gradAccum) loader s.core = (some rest, core))
    (hnorm : gradNorm window = none) :
    reportLoop cfg epoch gradNorm window loader t s =
      reportLoop cfg epoch gradNorm (window + 1) rest t { s with
        core := (core.setGradSync true).zeroGrad
        log := s.log ++ [.nonFiniteGrad core.step] } := by
  rw [reportLoop, if_pos hstep]
  split
  next heq => rw [h] at heq; cases heq
  next heq =>
    obtain ⟨hrest, hcore⟩ := Prod.mk.inj (h.symm.trans heq)
    rw [Option.some.inj hrest, hcore]
    dsimp only
    rw [hnorm]
    rfl

theorem reportLoop_applied (hstep : s.core.step < cfg.maxSteps)
    (h : accumulate cfg.gradAccum (List.range cfg.gradAccum) loader s.core = (some rest, core))
    {norm : ℚ} (hnorm : gradNorm window = some norm) :
    let drawn := loader.take cfg.gradAccum
    let core := (core.setGradSync true).optimizerStep.schedulerStep.zeroGrad.countStep
    reportLoop cfg epoch gradNorm window loader t s =
      reportLoop cfg epoch gradNorm (window + 1) rest (t.add drawn) { s with
        core
        log := s.log ++ [.window (windowLine cfg epoch t drawn norm core)] } := by
  intro drawn core'
  rw [reportLoop, if_pos hstep]
  split
  next heq => rw [h] at heq; cases heq
  next heq =>
    obtain ⟨hrest, hcore⟩ := Prod.mk.inj (h.symm.trans heq)
    rw [Option.some.inj hrest]
    subst hcore
    dsimp only
    rw [hnorm]

end Loop

theorem reportLoop_core (cfg : ReportConfig) (epoch : ℕ) (gradNorm : ℕ → Option ℚ) (window : ℕ)
    (loader : List Micro) (t : Totals) (s : Session) :
    (reportLoop cfg epoch gradNorm window loader t s).2.core =
      windowLoop cfg.toTrainConfig (fun w => (gradNorm w).isSome) window loader s.core := by
  induction window, loader, t, s using reportLoop.induct cfg epoch gradNorm with
  | case1 window loader t s hstep core heq =>
    rw [reportLoop, windowLoop, if_pos hstep, if_pos hstep, heq]
  | case2 window loader t s hstep rest core heq core' hnorm ih =>
    rw [reportLoop_skipped hstep heq hnorm, windowLoop_some hstep heq, hnorm]
    exact ih
  | case3 window loader t s hstep rest core heq drawn core' norm hnorm core'' ih =>
    rw [reportLoop_applied hstep heq hnorm, windowLoop_some hstep heq, hnorm]
    exact ih
  | case4 window loader t s hstep =>
    rw [reportLoop, windowLoop, if_neg hstep, if_neg hstep]

def windowLine? : Line → Option WindowLine
  | .window l => some l
  | .nonFiniteGrad _ | .epoch _ => none

def epochLine? : Line → Option EpochLine
  | .epoch l => some l
  | .nonFiniteGrad _ | .window _ => none

def windowLines (log : List Line) : List WindowLine := log.filterMap windowLine?

def epochLines (log : List Line) : List EpochLine := log.filterMap epochLine?

structure Tells (l : WindowLine) (step : ℕ) (window : List Micro) : Prop where
  step : l.step = step
  loss : l.loss = windowLoss window
  tokens : l.tokens = (window.map Micro.tokens).sum
  samples : l.samples = (window.map Micro.rows).sum

inductive Lines (epoch : ℕ) : ℕ → Totals → List (List Micro) → List WindowLine → Prop where
  | nil (step : ℕ) (t : Totals) : Lines epoch step t [] []
  | cons {step : ℕ} {t : Totals} {window : List Micro} {windows : List (List Micro)}
      {l : WindowLine} {ls : List WindowLine} (htells : Tells l (step + 1) window)
      (hepoch : l.epoch = epoch)
      (hema : l.lossRunningAvg = smooth lossEmaAlpha t.lossEma l.loss)
      (hspike : l.lossSpikeRatio = spikeRatio l.loss l.lossRunningAvg)
      (hrest : Lines epoch (step + 1) (t.add window) windows ls) :
      Lines epoch step t (window :: windows) (l :: ls)

theorem some_of_accumulate {cfg : TrainConfig} {loader rest : List Micro} {s core : State Micro}
    (h : accumulate cfg.gradAccum (List.range cfg.gradAccum) loader s = (some rest, core)) :
    cfg.gradAccum ≤ loader.length ∧ rest = loader.drop cfg.gradAccum ∧ core.step = s.step := by
  have hlen := accumulate_length h
  rw [List.length_range] at hlen
  have hfull : cfg.gradAccum ≤ loader.length := by omega
  obtain ⟨sync, hwindow⟩ := accumulate_full (n := cfg.gradAccum) (i := 0) hfull s
  rw [← List.range_eq_range', h] at hwindow
  obtain ⟨hrest, hcore⟩ := Prod.mk.inj hwindow
  exact ⟨hfull, Option.some.inj hrest, by rw [hcore]⟩

theorem none_of_accumulate {cfg : TrainConfig} {loader : List Micro} {s core : State Micro}
    (h : accumulate cfg.gradAccum (List.range cfg.gradAccum) loader s = (none, core)) :
    loader.length < cfg.gradAccum := by
  by_contra hfull
  obtain ⟨sync, hwindow⟩ := accumulate_full (n := cfg.gradAccum) (i := 0) (not_lt.1 hfull) s
  rw [← List.range_eq_range', h] at hwindow
  cases (Prod.mk.inj hwindow).1

structure LoopAdds (epoch : ℕ) (windows : List (List Micro)) (t : Totals) (s : Session)
    (after : Totals × Session) : Prop where
  totals : after.1 = windows.foldl Totals.add t
  lines : ∃ ls, windowLines after.2.log = windowLines s.log ++ ls ∧
    Lines epoch s.core.step t windows ls
  epochs : epochLines after.2.log = epochLines s.log
  saved : after.2.saved = s.saved

theorem LoopAdds.none {epoch : ℕ} {t : Totals} {s s' : Session}
    (hlines : windowLines s'.log = windowLines s.log) (hepochs : epochLines s'.log = epochLines s.log)
    (hsaved : s'.saved = s.saved) : LoopAdds epoch [] t s (t, s') :=
  ⟨rfl, ⟨[], by rw [hlines, List.append_nil], .nil _ _⟩, hepochs, hsaved⟩

theorem reportLoop_adds (cfg : ReportConfig) (epoch : ℕ) (gradNorm : ℕ → Option ℚ) (window : ℕ)
    (loader : List Micro) (t : Totals) (s : Session) :
    LoopAdds epoch
      (remaining cfg.toTrainConfig (fun w => (gradNorm w).isSome) window loader s.core.step) t s
      (reportLoop cfg epoch gradNorm window loader t s) := by
  induction window, loader, t, s using reportLoop.induct cfg epoch gradNorm with
  | case1 window loader t s hstep core heq =>
    rw [remaining_short (none_of_accumulate heq)]
    have hstop : reportLoop cfg epoch gradNorm window loader t s = (t, { s with core }) := by
      rw [reportLoop, if_pos hstep, heq]
    rw [hstop]
    exact .none rfl rfl rfl
  | case2 window loader t s hstep rest core heq core' hnorm ih =>
    obtain ⟨hfull, rfl, hcore⟩ := some_of_accumulate heq
    rw [reportLoop_skipped hstep heq hnorm, remaining_skipped hfull (by simp [hnorm]), ← hcore]
    obtain ⟨htotals, ⟨ls, hls, hlines⟩, hepochs, hsaved⟩ := ih
    refine ⟨htotals, ⟨ls, hls.trans ?_, by rw [← hcore]; exact hlines⟩, hepochs.trans ?_, hsaved⟩
    · simp [windowLines, windowLine?]
    · simp [epochLines, epochLine?]
  | case3 window loader t s hstep rest core heq drawn core' norm hnorm core'' ih =>
    obtain ⟨hfull, rfl, hcore⟩ := some_of_accumulate heq
    rw [reportLoop_applied hstep heq hnorm, remaining_finite hfull (by simp [hnorm]) hstep, ← hcore]
    obtain ⟨htotals, ⟨ls, hls, hlines⟩, hepochs, hsaved⟩ := ih
    refine ⟨htotals, ⟨windowLine cfg epoch t drawn norm core'' :: ls, hls.trans ?_, ?_⟩,
      hepochs.trans ?_, hsaved⟩
    · simp [windowLines, windowLine?]
    · rw [← hcore]
      exact .cons ⟨rfl, rfl, rfl, rfl⟩ rfl rfl rfl hlines
    · simp [epochLines, epochLine?]
  | case4 window loader t s hstep =>
    have hnone : remaining cfg.toTrainConfig (fun w => (gradNorm w).isSome) window loader
        s.core.step = [] := by
      rw [remaining, Nat.sub_eq_zero_of_le (Nat.le_of_not_lt hstep), List.take_zero]
    rw [hnone, reportLoop, if_neg hstep]
    exact .none rfl rfl rfl

def told (l : WindowLine) : ℕ × ℚ × ℕ × ℕ := (l.step, l.loss, l.tokens, l.samples)

def toTell (window : List Micro × ℕ) : ℕ × ℚ × ℕ × ℕ :=
  (window.2, windowLoss window.1, (window.1.map Micro.tokens).sum, (window.1.map Micro.rows).sum)

namespace Lines
variable {epoch step : ℕ} {t : Totals} {windows : List (List Micro)} {ls : List WindowLine}

theorem told_eq (h : Lines epoch step t windows ls) :
    ls.map told = (windows.zipIdx (step + 1)).map toTell := by
  induction h with
  | nil => rfl
  | cons htells _ _ _ _ ih =>
    rw [List.map_cons, List.zipIdx_cons, List.map_cons, ih]
    simp only [told, toTell, htells.step, htells.loss, htells.tokens, htells.samples]

theorem losses_eq (h : Lines epoch step t windows ls) :
    ls.map WindowLine.loss = windows.map windowLoss := by
  have htold := congrArg (List.map (fun x => x.2.1)) h.told_eq
  rw [List.map_map, List.map_map] at htold
  have hzip : (windows.zipIdx (step + 1)).map ((fun x => x.2.1) ∘ toTell) =
      ((windows.zipIdx (step + 1)).map Prod.fst).map windowLoss := by
    rw [List.map_map]
    rfl
  rwa [hzip, List.zipIdx_map_fst] at htold

theorem epoch_eq (h : Lines epoch step t windows ls) : ∀ l ∈ ls, l.epoch = epoch := by
  induction h with
  | nil => simp
  | cons _ hepoch _ _ _ ih => exact List.forall_mem_cons.2 ⟨hepoch, ih⟩

theorem step_lt (h : Lines epoch step t windows ls) : ∀ l ∈ ls, step < l.step := by
  induction h with
  | nil => simp
  | cons htells _ _ _ _ ih =>
    refine List.forall_mem_cons.2 ⟨?_, fun l hl => Nat.lt_of_succ_lt (ih l hl)⟩
    rw [htells.step]
    exact Nat.lt_succ_self _

theorem getLast_step (h : Lines epoch step t windows ls) (hne : ls ≠ []) :
    ls.getLast?.map WindowLine.step = some (step + windows.length) := by
  induction h with
  | nil => exact absurd rfl hne
  | cons htells _ _ _ hrest ih =>
    cases hrest with
    | nil => simp [htells.step]
    | cons =>
      rw [List.getLast?_cons_cons, ih (by simp)]
      simp only [List.length_cons, Option.some.injEq]
      omega

theorem running (h : Lines epoch step t windows ls) {earlier : List ℚ}
    (hema : ∀ v ∈ t.lossEma, Among earlier v) :
    ∀ l ∈ ls, ∃ seen ⊆ ls, (∀ x ∈ seen, x.step ≤ l.step) ∧
      Among (earlier ++ seen.map WindowLine.loss) l.lossRunningAvg := by
  induction h generalizing earlier with
  | nil => simp
  | @cons step t window windows l ls htells hepoch hrunning hspike hrest ih =>
    have hnow : Among (earlier ++ [l.loss]) l.lossRunningAvg := by
      rw [hrunning]
      exact smooth_among (by norm_num [lossEmaAlpha]) (by norm_num [lossEmaAlpha]) hema l.loss
    refine List.forall_mem_cons.2 ⟨⟨[l], by simp, by simp, hnow⟩, fun x hx => ?_⟩
    have hnext : ∀ v ∈ (t.add window).lossEma, Among (earlier ++ [l.loss]) v := by
      intro v hv
      rwa [hrunning, htells.loss, Option.some.inj hv, ← htells.loss] at hnow
    obtain ⟨seen, hseen, hstep, hamong⟩ := ih hnext x hx
    refine ⟨l :: seen, List.cons_subset_cons l hseen, List.forall_mem_cons.2 ⟨?_, hstep⟩, ?_⟩
    · rw [htells.step]
      exact (hrest.step_lt x hx).le
    · simpa using hamong

theorem spike (h : Lines epoch step t windows ls) (hema : ∀ v ∈ t.lossEma, 0 ≤ v)
    (hloss : ∀ w ∈ windows, 0 ≤ windowLoss w) :
    ∀ l ∈ ls, 0 ≤ l.lossSpikeRatio ∧ l.lossSpikeRatio ≤ 20 := by
  induction h with
  | nil => simp
  | @cons step t window windows l ls htells hepoch hrunning hspike hrest ih =>
    obtain ⟨hnow, hlater⟩ := List.forall_mem_cons.1 hloss
    rw [← htells.loss] at hnow
    have hshare : lossEmaAlpha * l.loss ≤ l.lossRunningAvg := by
      rw [hrunning]
      exact le_smooth (by norm_num [lossEmaAlpha]) hema hnow
    rw [lossEmaAlpha] at hshare
    refine List.forall_mem_cons.2 ⟨?_, ih (fun v hv => ?_) hlater⟩
    · rw [hspike, spikeRatio]
      split
      next hpos =>
        refine ⟨div_nonneg hnow hpos.le, (div_le_iff₀ hpos).2 ?_⟩
        linarith
      next => norm_num
    · rw [← Option.some.inj hv, ← htells.loss, ← hrunning]
      linarith

end Lines

theorem totals_loss (windows : List (List Micro)) (t : Totals) :
    (windows.foldl Totals.add t).epochLoss = t.epochLoss + (windows.map windowLoss).sum ∧
      (windows.foldl Totals.add t).epochSteps = t.epochSteps + windows.length := by
  induction windows generalizing t with
  | nil => simp
  | cons w ws ih =>
    obtain ⟨hloss, hsteps⟩ := ih (t.add w)
    rw [List.foldl_cons, hloss, hsteps]
    simp only [Totals.add, List.map_cons, List.sum_cons, List.length_cons]
    exact ⟨add_assoc _ _ _, by omega⟩

def EpochLine.checkpointed (e : EpochLine) : Checkpointed := ⟨e.epoch, e.step, e.epochAvgLoss⟩

structure EpochAdds (cfg : ReportConfig) (epoch : ℕ) (windows : List (List Micro))
    (s s' : Session) : Prop where
  step : s'.core.step = s.core.step + windows.length
  lines : ∃ ls, windowLines s'.log = windowLines s.log ++ ls ∧
    Lines epoch s.core.step .zero windows ls
  epochs : ∃ es, epochLines s'.log = epochLines s.log ++ es ∧
    s'.saved = s.saved ++
      (es.filter (fun e => cfg.saves e.epoch)).map EpochLine.checkpointed ∧
    (windows = [] → es = []) ∧
    (windows ≠ [] → ∃ e, es = [e] ∧ e.epoch = epoch ∧ e.step = s'.core.step ∧
      e.epochAvgLoss = mean (windows.map windowLoss))

theorem reportEpoch_adds (cfg : ReportConfig) (epoch : ℕ) (s : Session) (e : EpochData) :
    EpochAdds cfg epoch (epochWindows cfg.toTrainConfig s.core.step e.toEpoch) s
      (reportEpoch cfg epoch s e) := by
  have hcore := reportLoop_core cfg epoch e.gradNorm 0 e.loader .zero
    { s with core := s.core.zeroGrad }
  have hadds := reportLoop_adds cfg epoch e.gradNorm 0 e.loader .zero
    { s with core := s.core.zeroGrad }
  have hadvances := runEpoch_advances cfg.toTrainConfig s.core e.toEpoch
  rw [runEpoch, EpochData.toEpoch, ← hcore] at hadvances
  have hstep := hadvances.step
  change LoopAdds epoch (epochWindows cfg.toTrainConfig s.core.step e.toEpoch) _ _ _ at hadds
  change _ = _ + (epochWindows cfg.toTrainConfig s.core.step e.toEpoch).length at hstep
  generalize epochWindows cfg.toTrainConfig s.core.step e.toEpoch = ws at hadds hstep
  rw [reportEpoch]
  generalize reportLoop cfg epoch e.gradNorm 0 e.loader .zero { s with core := s.core.zeroGrad } =
    after at hadds hstep
  obtain ⟨t, s'⟩ := after
  obtain ⟨htotals, hlines, hepochs, hsaved⟩ := hadds
  obtain ⟨hloss, hcount⟩ := totals_loss ws .zero
  dsimp only at htotals hlines hepochs hsaved hstep ⊢
  rw [← htotals] at hloss hcount
  have hcount : t.epochSteps = ws.length := hcount.trans (Nat.zero_add _)
  have hloss : t.epochLoss = (ws.map windowLoss).sum := hloss.trans (zero_add _)
  by_cases hws : ws = []
  · subst hws
    have hzero : t.epochSteps = 0 := hcount
    rw [if_pos hzero]
    exact ⟨hstep, hlines, [], by simp [hepochs, hsaved]⟩
  · have hpos : t.epochSteps ≠ 0 := by rw [hcount]; exact fun h => hws (List.length_eq_zero_iff.1 h)
    rw [if_neg hpos]
    have hmean : t.epochLoss / t.epochSteps = mean (ws.map windowLoss) := by
      rw [hloss, hcount, mean, List.length_map]
    refine ⟨hstep, ?_, [epochLine cfg epoch t s'.core.step], ?_, ?_, fun h => absurd h hws,
      fun _ => ⟨_, rfl, rfl, rfl, hmean⟩⟩
    · have hsame : windowLines (s'.log ++ [.epoch (epochLine cfg epoch t s'.core.step)]) =
          windowLines s'.log := by simp [windowLines, windowLine?]
      rw [hsame]
      exact hlines
    · rw [← hepochs]
      simp [epochLines, epochLine?]
    · rw [hsaved]
      by_cases hsaves : cfg.saves epoch = true <;>
        simp [hsaves, epochLine, EpochLine.checkpointed]

def ofEpoch (epoch : ℕ) (ls : List WindowLine) : List WindowLine :=
  ls.filter (fun l => l.epoch == epoch)

structure Booked (epoch step : ℕ) (windows : List (List Micro)) (ls : List WindowLine)
    (es : List EpochLine) : Prop where
  told : ls.map told = (windows.zipIdx (step + 1)).map toTell
  later : ∀ l ∈ ls, epoch ≤ l.epoch
  covered : ∀ l ∈ ls, ∃ e ∈ es, e.epoch = l.epoch
  running : ∀ l ∈ ls, ∃ seen ⊆ ofEpoch l.epoch ls, (∀ x ∈ seen, x.step ≤ l.step) ∧
    Among (seen.map WindowLine.loss) l.lossRunningAvg
  spike : (∀ w ∈ windows, 0 ≤ windowLoss w) →
    ∀ l ∈ ls, 0 ≤ l.lossSpikeRatio ∧ l.lossSpikeRatio ≤ 20
  laterEpochs : ∀ e ∈ es, epoch ≤ e.epoch ∧ step < e.step
  ordered : es.Pairwise (fun e f => e.epoch < f.epoch ∧ e.step < f.step)
  averaged : ∀ e ∈ es, e.epochAvgLoss = mean ((ofEpoch e.epoch ls).map WindowLine.loss) ∧
    (ofEpoch e.epoch ls).getLast?.map WindowLine.step = some e.step

theorem booked_nil (epoch step : ℕ) : Booked epoch step [] [] [] where
  told := rfl
  later := by simp
  covered := by simp
  running := by simp
  spike := by simp
  laterEpochs := by simp
  ordered := .nil
  averaged := by simp

theorem ofEpoch_append (epoch : ℕ) (ls ls' : List WindowLine) :
    ofEpoch epoch (ls ++ ls') = ofEpoch epoch ls ++ ofEpoch epoch ls' := List.filter_append _ _

theorem ofEpoch_self {epoch : ℕ} {ls : List WindowLine} (h : ∀ l ∈ ls, l.epoch = epoch) :
    ofEpoch epoch ls = ls := List.filter_eq_self.2 (fun l hl => by simp [h l hl])

theorem ofEpoch_other {epoch : ℕ} {ls : List WindowLine} (h : ∀ l ∈ ls, l.epoch ≠ epoch) :
    ofEpoch epoch ls = [] := List.filter_eq_nil_iff.2 (fun l hl => by simp [h l hl])

theorem booked_epoch {epoch step : ℕ} {windows : List (List Micro)} {ls : List WindowLine}
    (h : Lines epoch step .zero windows ls) (hne : windows ≠ []) {e : EpochLine}
    (hepoch : e.epoch = epoch) (hstep : e.step = step + windows.length)
    (havg : e.epochAvgLoss = mean (windows.map windowLoss)) :
    Booked epoch step windows ls [e] := by
  have hpos : 0 < windows.length := List.length_pos_iff.2 hne
  have hlines : ls ≠ [] := by
    rintro rfl
    cases h
    exact hne rfl
  have hall := ofEpoch_self h.epoch_eq
  have hema : ∀ v ∈ Totals.zero.lossEma, Among [] v := fun v hv => by cases hv
  have hrunning := h.running hema
  refine ⟨h.told_eq, fun l hl => (h.epoch_eq l hl).ge, fun l hl => ⟨e, by simp, ?_⟩, fun l hl => ?_,
    h.spike (fun v hv => by cases hv), ?_, List.pairwise_singleton _ _, ?_⟩
  · rw [hepoch, h.epoch_eq l hl]
  · rw [h.epoch_eq l hl, hall]
    exact hrunning l hl
  · simp only [List.mem_singleton, forall_eq]
    omega
  · simp only [List.mem_singleton, forall_eq]
    rw [hepoch, hall, h.losses_eq, h.getLast_step hlines, hstep]
    exact ⟨havg, rfl⟩

theorem Booked.append {epoch step : ℕ} {ws ws' : List (List Micro)} {ls ls' : List WindowLine}
    {es es' : List EpochLine} (h : Booked epoch step ws ls es) (hls : ∀ l ∈ ls, l.epoch = epoch)
    (hes : ∀ e ∈ es, e.epoch = epoch ∧ e.step = step + ws.length)
    (h' : Booked (epoch + 1) (step + ws.length) ws' ls' es') :
    Booked epoch step (ws ++ ws') (ls ++ ls') (es ++ es') := by
  have hfirst : ∀ n, n = epoch → ofEpoch n (ls ++ ls') = ofEpoch n ls := by
    rintro n rfl
    rw [ofEpoch_append, ofEpoch_other (fun l hl => Nat.ne_of_gt (h'.later l hl)),
      List.append_nil]
  have hrest : ∀ n, epoch < n → ofEpoch n (ls ++ ls') = ofEpoch n ls' := by
    intro n hn
    rw [ofEpoch_append, ofEpoch_other (fun l hl => ((hls l hl).trans_lt hn).ne), List.nil_append]
  constructor
  case told =>
    rw [List.map_append, h.told, h'.told, List.zipIdx_append, List.map_append]
    congr 3
    omega
  case later =>
    intro l hl
    rcases List.mem_append.1 hl with hl | hl
    · exact h.later l hl
    · exact (Nat.le_succ _).trans (h'.later l hl)
  case covered =>
    intro l hl
    rcases List.mem_append.1 hl with hl | hl
    · obtain ⟨e, he, heq⟩ := h.covered l hl
      exact ⟨e, List.mem_append_left _ he, heq⟩
    · obtain ⟨e, he, heq⟩ := h'.covered l hl
      exact ⟨e, List.mem_append_right _ he, heq⟩
  case running =>
    intro l hl
    rcases List.mem_append.1 hl with hl | hl
    · rw [hfirst _ (hls l hl)]
      exact h.running l hl
    · rw [hrest _ (h'.later l hl)]
      exact h'.running l hl
  case spike =>
    intro hloss l hl
    rcases List.mem_append.1 hl with hl | hl
    · exact h.spike (fun w hw => hloss w (List.mem_append_left _ hw)) l hl
    · exact h'.spike (fun w hw => hloss w (List.mem_append_right _ hw)) l hl
  case laterEpochs =>
    intro e he
    rcases List.mem_append.1 he with he | he
    · exact h.laterEpochs e he
    · have hlater := h'.laterEpochs e he
      omega
  case ordered =>
    refine List.pairwise_append.2 ⟨h.ordered, h'.ordered, fun e he f hf => ?_⟩
    have hearly := hes e he
    have hlate := h'.laterEpochs f hf
    omega
  case averaged =>
    intro e he
    rcases List.mem_append.1 he with he | he
    · rw [hfirst _ (hes e he).1]
      exact h.averaged e he
    · rw [hrest _ (h'.laterEpochs e he).1]
      exact h'.averaged e he

structure RunAdds (cfg : ReportConfig) (epoch : ℕ) (windows : List (List Micro))
    (s s' : Session) : Prop where
  step : s'.core.step = s.core.step + windows.length
  booked : ∃ ls es, windowLines s'.log = windowLines s.log ++ ls ∧
    epochLines s'.log = epochLines s.log ++ es ∧ Booked epoch s.core.step windows ls es ∧
    s'.saved = s.saved ++ (es.filter (fun e => cfg.saves e.epoch)).map EpochLine.checkpointed

theorem runAdds_nil (cfg : ReportConfig) (epoch : ℕ) (s : Session) : RunAdds cfg epoch [] s s where
  step := rfl
  booked := ⟨[], [], by simp, by simp, booked_nil _ _, by simp⟩

theorem EpochAdds.append {cfg : ReportConfig} {epoch : ℕ} {ws ws' : List (List Micro)}
    {s s' s'' : Session} (h : EpochAdds cfg epoch ws s s') (h' : RunAdds cfg (epoch + 1) ws' s' s'') :
    RunAdds cfg epoch (ws ++ ws') s s'' := by
  obtain ⟨hstep, ⟨ls, hls, hlines⟩, es, hes, hsaved, hempty, hfull⟩ := h
  obtain ⟨hstep', ls', es', hls', hes', hbooked', hsaved'⟩ := h'
  have hbooked : Booked epoch s.core.step ws ls es ∧
      ∀ e ∈ es, e.epoch = epoch ∧ e.step = s.core.step + ws.length := by
    by_cases hws : ws = []
    · obtain rfl := hempty hws
      subst hws
      cases hlines
      exact ⟨booked_nil _ _, by simp⟩
    · obtain ⟨e, rfl, hepoch, hestep, havg⟩ := hfull hws
      rw [hstep] at hestep
      exact ⟨booked_epoch hlines hws hepoch hestep havg, by simp [hepoch, hestep]⟩
  rw [hstep] at hbooked'
  refine ⟨?_, ls ++ ls', es ++ es', ?_, ?_,
    hbooked.1.append hlines.epoch_eq hbooked.2 hbooked', ?_⟩
  · rw [hstep', hstep, List.length_append, Nat.add_assoc]
  · rw [hls', hls, List.append_assoc]
  · rw [hes', hes, List.append_assoc]
  · rw [hsaved', hsaved, List.filter_append, List.map_append, List.append_assoc]

theorem reportTrain_adds (cfg : ReportConfig) (epochs : List EpochData) (epoch : ℕ) (s : Session) :
    RunAdds cfg epoch
      (trainWindows cfg.toTrainConfig s.core.step (epochs.map EpochData.toEpoch)) s
      (reportTrain cfg epoch epochs s) := by
  induction epochs generalizing epoch s with
  | nil => exact runAdds_nil cfg epoch s
  | cons e es ih =>
    have hepoch := reportEpoch_adds cfg epoch s e
    rw [reportTrain, List.map_cons, trainWindows, ← hepoch.step]
    by_cases hlimit : (reportEpoch cfg epoch s e).core.step ≥ cfg.maxSteps
    · rw [if_pos hlimit, trainWindows_of_le hlimit]
      exact hepoch.append (runAdds_nil cfg _ _)
    · rw [if_neg hlimit]
      exact hepoch.append (ih _ _)

theorem reportTrain_core (cfg : ReportConfig) (epochs : List EpochData) (epoch : ℕ) (s : Session) :
    (reportTrain cfg epoch epochs s).core =
      train cfg.toTrainConfig (epochs.map EpochData.toEpoch) s.core := by
  have hepoch : ∀ epoch s e, (reportEpoch cfg epoch s e).core =
      runEpoch cfg.toTrainConfig s.core e.toEpoch := by
    intro epoch s e
    have hloop := reportLoop_core cfg epoch e.gradNorm 0 e.loader .zero
      { s with core := s.core.zeroGrad }
    rw [reportEpoch, runEpoch, EpochData.toEpoch, ← hloop]
    dsimp only
    split <;> rfl
  induction epochs generalizing epoch s with
  | nil => rfl
  | cons e es ih =>
    rw [reportTrain, List.map_cons, train, ← hepoch epoch s e]
    split
    · rfl
    · exact ih _ _

/-- Over all epochs of a run, from any step on: the run is that of the training loop; its lines tell of
the windows that were applied, one after another and each once, with the mean loss of its micro-batches;
an epoch's average is the mean of its lines, the running average is among its losses so far, and the
ratio of the two is bounded. -/
theorem train_report (cfg : ReportConfig) (epochs : List EpochData) (step : ℕ) (gradSync : Bool)
    (grads : List (Backward Micro)) :
    let final := reportTrain cfg 0 epochs (Session.start step gradSync grads)
    let loaded := epochs.map EpochData.toEpoch
    final.core = train cfg.toTrainConfig loaded (State.start step gradSync grads) ∧
      Booked 0 step (trainWindows cfg.toTrainConfig step loaded) (windowLines final.log)
        (epochLines final.log) ∧
      final.saved = ((epochLines final.log).filter (fun e => cfg.saves e.epoch)).map
        EpochLine.checkpointed := by
  intro final loaded
  obtain ⟨_, ls, es, hls, hes, hbooked, hsaved⟩ :=
    reportTrain_adds cfg epochs 0 (Session.start step gradSync grads)
  have hls : windowLines final.log = ls := hls
  have hes : epochLines final.log = es := hes
  rw [hls, hes]
  exact ⟨reportTrain_core cfg epochs 0 _, hbooked, hsaved⟩

end Slakshna.Training

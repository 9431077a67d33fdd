import Slakshna.Training.Report
import Slakshna.Training.Retention

/-! What a training run leaves in its save directory. -/
namespace Slakshna.Training

section Saved
open Checkpoint FileTree Lowest
variable {S : Type} (shards : Checkpointed → HashMap Name S × HashMap Name S)
  (iter : Checkpointed → IterOrder Name) (order : Checkpointed → DeleteOrder Name)

def Checkpointed.args (c : Checkpointed) : SaveArgs S ℚ :=
  ⟨⟨c.step, (shards c).1, (shards c).2, c.avgLoss⟩, iter c, order c⟩

theorem saved_steps (cfg : ReportConfig) (epochs : List EpochData) (step : ℕ) (gradSync : Bool)
    (grads : List (Backward Micro)) :
    (reportTrain cfg 0 epochs (Session.start step gradSync grads)).saved.Pairwise
      (fun c d => c.step < d.step) := by
  obtain ⟨_, hbooked, hsaved⟩ := train_report cfg epochs step gradSync grads
  rw [hsaved, List.pairwise_map]
  exact (hbooked.ordered.sublist List.filter_sublist).imp And.right

theorem loss_le_of_step_le {saved : List Checkpointed}
    (h : saved.Pairwise (fun c d => c.step < d.step ∧ d.avgLoss < c.avgLoss)) {c d : Checkpointed}
    (hc : c ∈ saved) (hd : d ∈ saved) (hstep : c.step ≤ d.step) : d.avgLoss ≤ c.avgLoss := by
  refine List.Pairwise.forall_of_forall_of_flip (R := fun c d : Checkpointed =>
    c.step ≤ d.step → d.avgLoss ≤ c.avgLoss) (fun _ _ _ => le_rfl) ?_ ?_ hc hd hstep
  · exact h.imp (fun hlt _ => hlt.2.le)
  · exact h.imp (fun hlt hle => absurd hle (not_le.2 hlt.1))

theorem spared_of_falling {saved : List Checkpointed}
    (h : saved.Pairwise (fun c d => c.step < d.step ∧ d.avgLoss < c.avgLoss)) {keepLastN : ℕ}
    (hkeep : keepLastN ≤ defaultKeepLastN) {l : List (SaveArgs S ℚ)} {a : SaveArgs S ℚ}
    (hl : l ++ [a] <+: saved.map (Checkpointed.args shards iter order)) :
    Spared keepLastN (l.map SaveArgs.save) a.save := by
  by_cases hroom : keepLastN < defaultKeepLastN
  · left
    rw [length_lowest]
    exact (min_le_left _ _).trans_lt hroom
  right
  have hof : ∀ s ∈ (l ++ [a]).map SaveArgs.save,
      ∃ c ∈ saved, c.step = s.step ∧ c.avgLoss = s.avgLoss := by
    intro s hs
    obtain ⟨b, hb, rfl⟩ := List.mem_map.1 hs
    obtain ⟨c, hc, rfl⟩ := List.mem_map.1 (hl.subset hb)
    exact ⟨c, hc, rfl, rfl⟩
  have hsteps : (l ++ [a]).Pairwise (fun b c => b.save.step < c.save.step) := by
    refine List.Pairwise.sublist hl.sublist (List.pairwise_map.2 ?_)
    exact h.imp And.left
  refine ⟨le_antisymm hkeep (not_lt.1 hroom), fun old hold holdest s hs => ?_⟩
  have hold' := mem_of_mem_lowest _ hold
  obtain ⟨c, hc, hcstep, hcloss⟩ := hof old (by simpa using Or.inl (by simpa using hold'))
  have hs' : s ∈ (l ++ [a]).map SaveArgs.save ∧ old.step ≤ s.step := by
    rcases List.mem_append.1 hs with hs | hs
    · have hmem := mem_of_mem_lowest _ hs
      exact ⟨by simpa using Or.inl (by simpa using hmem), holdest s hs⟩
    · rw [List.mem_singleton.1 hs]
      obtain ⟨b, hb, rfl⟩ := List.mem_map.1 hold'
      exact ⟨by simp, ((List.pairwise_append.1 hsteps).2.2 b hb a (by simp)).le⟩
  obtain ⟨d, hd, hdstep, hdloss⟩ := hof s hs'.1
  rw [← hcloss, ← hdloss]
  exact loss_le_of_step_le h hc hd (by rw [hcstep, hdstep]; exact hs'.2)

/-- Where the average loss falls from one checkpoint to the next and no more than three are kept, the
last of them are what is on disk. -/
theorem train_retains (cfg : ReportConfig) (epochs : List EpochData) (step : ℕ) (gradSync : Bool)
    (grads : List (Backward Micro)) {keepLastN : ℕ} (hkeep : keepLastN ≤ defaultKeepLastN) :
    let saved := (reportTrain cfg 0 epochs (Session.start step gradSync grads)).saved
    saved.Pairwise (fun c d => d.avgLoss < c.avgLoss) →
    completed (Run.exec (saveAndPrune keepLastN) Saver.empty
      (saved.map (Checkpointed.args shards iter order))).disk =
        ((saved.rtake keepLastN).map (fun c => stepName c.step)).toFinset := by
  intro saved hfalls
  have hboth : saved.Pairwise (fun c d => c.step < d.step ∧ d.avgLoss < c.avgLoss) :=
    (saved_steps cfg epochs step gradSync grads).and hfalls
  have hsteps : ((saved.map (Checkpointed.args shards iter order)).map
      (fun a => a.save.step)).Pairwise (· < ·) := by
    rw [List.map_map, List.pairwise_map]
    exact hboth.imp And.left
  have hlosses : ((saved.map (Checkpointed.args shards iter order)).map
      (fun a => a.save.avgLoss)).Nodup := by
    rw [List.map_map, List.Nodup, List.pairwise_map]
    exact hboth.imp (fun h => h.2.ne')
  obtain ⟨hdisk, hbest⟩ := (retained_throughout_iff keepLastN _ hsteps hlosses).2
    (fun l a hl => spared_of_falling shards iter order hboth hkeep hl) _ List.prefix_rfl
  have hfall : ((saved.map (Checkpointed.args shards iter order)).map SaveArgs.save).Pairwise
      (fun a b => b.avgLoss < a.avgLoss) := by
    rw [List.map_map, List.pairwise_map]
    exact hfalls
  rw [hdisk, hbest, lowest_falling _ hfall, List.map_reverse, List.map_reverse,
    List.toFinset_reverse]
  simp only [List.rtake, List.length_map, List.map_drop, List.map_map]
  rfl

end Saved

def sampleReport : ReportConfig where
  gradAccum := 1
  maxSteps := 10
  gradAccum_pos := by decide
  isMoe := false
  auxLossWeight := 0
  lastLr := fun _ => 1
  saveEnabled := true
  saveInterval := 1
  saveInterval_pos := by decide

def sampleEpochs : List EpochData :=
  [3, 2].map (fun loss => ⟨[⟨8, 1, 8, loss, none⟩], fun _ => some 1⟩)

open Checkpoint in
theorem train_retains_sample :
    let saved := (reportTrain sampleReport 0 sampleEpochs (Session.start 0 true [])).saved
    completed (Run.exec (saveAndPrune 1) (Saver.empty : Saver ℕ ℚ)
      (saved.map (Checkpointed.args (fun _ => (∅, ∅)) (fun _ => .asStored)
        (fun _ => .deepestFirst)))).disk =
        ((saved.rtake 1).map (fun c => stepName c.step)).toFinset :=
  train_retains _ _ _ sampleReport sampleEpochs 0 true [] (by decide) (by decide +kernel)

end Slakshna.Training

import Slakshna.Lib.Run
import Slakshna.Training.Save

/-! The trainer's own pruning, which keeps the checkpoints of lowest loss, beside the pruning of a
save, which keeps the newest. The trainer does not hand its limit on. -/
namespace Slakshna.Checkpoint
open FileTree Lowest
variable {S L : Type}

def defaultKeepLastN : ℕ := 3

structure SaveArgs (S L : Type) where
  save : Save S L
  iter : IterOrder Name
  order : DeleteOrder Name

/-- The call of `save_checkpoint` does not set `keep_last_n`. -/
def SaveArgs.call (a : SaveArgs S L) : Call S L := ⟨a.save, defaultKeepLastN, a.iter, a.order⟩

structure Saver (S L : Type) where
  disk : Disk S L
  best : List (L × Name)

def Saver.empty : Saver S L := ⟨∅, []⟩

def Save.name (c : Save S L) : Name := stepName c.step

def Save.entry (c : Save S L) : L × Name := (c.avgLoss, c.name)

def pops {α : Type} : ℕ → List α → List α × List α
  | 0, l => (l, [])
  | excess + 1, l =>
    match l.getLast? with
    | none => (l, [])
    | some x => ((pops excess l.dropLast).1, x :: (pops excess l.dropLast).2)

section Policy
variable [LinearOrder L]

def pushed (best : List (L × Name)) (c : Save S L) : List (L × Name) :=
  sortBy Prod.fst (best ++ [c.entry])

def popped (keepLastN : ℕ) (best : List (L × Name)) (c : Save S L) :
    List (L × Name) × List (L × Name) :=
  pops ((pushed best c).length - keepLastN) (pushed best c)

def SaveArgs.phases (keepLastN : ℕ) (best : List (L × Name)) (a : SaveArgs S L) :
    List (Phase Name (Content S L)) :=
  (fun _ => [.mkdir []]) :: a.call.phases ++
    (popped keepLastN best a.save).2.map (fun old => fun t => rmtree a.order t [old.2])

def saveAndPrune (keepLastN : ℕ) (st : Saver S L) (a : SaveArgs S L) : Saver S L :=
  { disk := execAll (a.phases keepLastN st.best) st.disk
    best := (popped keepLastN st.best a.save).1 }

/-- What the two prunings together should leave of the saves so far. -/
structure Retained (keepLastN : ℕ) (saves : List (Save S L)) (st : Saver S L) : Prop where
  onDisk : completed st.disk = (st.best.map Prod.snd).toFinset
  best : st.best = (lowest Save.avgLoss keepLastN saves).map Save.entry

/-- There is room for one more before the oldest goes, or the oldest is the one of highest loss. -/
def Spared (keepLastN : ℕ) (saves : List (Save S L)) (c : Save S L) : Prop :=
  (lowest Save.avgLoss keepLastN saves).length < defaultKeepLastN ∨
    keepLastN = defaultKeepLastN ∧
      ∀ old ∈ lowest Save.avgLoss keepLastN saves,
        (∀ s ∈ lowest Save.avgLoss keepLastN saves, old.step ≤ s.step) →
        ∀ s ∈ lowest Save.avgLoss keepLastN saves ++ [c], s.avgLoss ≤ old.avgLoss

end Policy

theorem pops_eq {α : Type} (n : ℕ) (l : List α) :
    pops (l.length - n) l = (l.take n, (l.drop n).reverse) := by
  induction l using List.reverseRecOn with
  | nil => simp [pops]
  | append_singleton l x ih =>
    by_cases hn : n ≤ l.length
    · have hexcess : (l ++ [x]).length - n = (l.length - n) + 1 := by simp; omega
      rw [hexcess, pops, List.getLast?_concat, List.dropLast_concat, ih,
        List.take_append_of_le_length hn, List.drop_append_of_le_length hn, List.reverse_concat]
    · have hexcess : (l ++ [x]).length - n = 0 := by simp; omega
      have hlength : (l ++ [x]).length ≤ n := by simp; omega
      rw [hexcess, pops, List.take_of_length_le hlength, List.drop_of_length_le hlength]
      rfl

section Policy
variable [LinearOrder L]

theorem pushed_eq (K : List (Save S L)) (c : Save S L) :
    pushed (K.map Save.entry) c = (sortBy Save.avgLoss (K ++ [c])).map Save.entry := by
  rw [pushed, ← List.map_singleton (f := Save.entry), ← List.map_append, sortBy_map]
  rfl

theorem popped_eq (keepLastN : ℕ) (K : List (Save S L)) (c : Save S L) :
    popped keepLastN (K.map Save.entry) c =
      ((lowest Save.avgLoss keepLastN (K ++ [c])).map Save.entry,
        (((sortBy Save.avgLoss (K ++ [c])).drop keepLastN).map Save.entry).reverse) := by
  rw [popped, pops_eq, pushed_eq, ← List.map_take, ← List.map_drop]
  rfl

end Policy

theorem completed_prune (order : DeleteOrder Name) (old : List (L × Name)) (t : Disk S L) :
    completed (execAll (old.map (fun o => fun t => rmtree order t [o.2])) t) =
      completed t \ (old.map Prod.snd).toFinset := by
  induction old generalizing t with
  | nil => simp [execAll]
  | cons o old ih =>
    have hone := completed_removal order [o.2] t
    rw [List.flatMap_singleton] at hone
    rw [List.map_cons, execAll, ih, hone]
    ext name
    simp [and_assoc]

theorem completed_mkdir (t : Disk S L) : completed (exec t [.mkdir []]) = completed t := by
  have hroot : ∀ op ∈ [(.mkdir [] : Op Name (Content S L))], op.Touches (fun q => q = []) := by
    intro op hop
    rw [List.mem_singleton.1 hop]
    rfl
  ext name
  rw [mem_completed, mem_completed, isCompleted_congr (t := t)]
  intro p hp
  obtain ⟨tail, rfl⟩ := hp
  exact lookup_exec hroot t (List.cons_ne_nil _ _)

structure Follows (saves : List (Save S L)) (c : Save S L) : Prop where
  newer : ∀ s ∈ saves, s.step < c.step
  steps : (saves.map Save.step).Nodup
  losses : ((saves ++ [c]).map Save.avgLoss).Nodup

theorem stepKey_name (s : Save S L) : stepKey s.name = s.step := by
  rw [stepKey, Save.name, searchStep_stepName]
  rfl

theorem Follows.nodup_names {saves : List (Save S L)} {c : Save S L} (h : Follows saves c) :
    ((saves ++ [c]).map Save.name).Nodup := by
  have hsteps : ((saves ++ [c]).map Save.step).Nodup := by
    rw [List.map_append, List.map_singleton]
    refine List.nodup_append.2 ⟨h.steps, List.nodup_singleton _, ?_⟩
    intro m hm n hn
    obtain ⟨s, hs, rfl⟩ := List.mem_map.1 hm
    rw [List.mem_singleton.1 hn]
    exact (h.newer s hs).ne
  have hmap : (saves ++ [c]).map Save.name = ((saves ++ [c]).map Save.step).map stepName := by
    rw [List.map_map]
    rfl
  rw [hmap]
  exact hsteps.map stepName_injective

theorem Follows.name_inj {saves : List (Save S L)} {c s s' : Save S L} (h : Follows saves c)
    (hs : s ∈ saves ++ [c]) (hs' : s' ∈ saves ++ [c]) (hname : s.name = s'.name) : s = s' :=
  List.inj_on_of_nodup_map h.nodup_names hs hs' hname

theorem names_concat (saves : List (Save S L)) (c : Save S L) :
    insert c.name (saves.map Save.name).toFinset = ((saves ++ [c]).map Save.name).toFinset := by
  ext name
  simp

theorem sdiff_sdiff_eq_iff {α : Type} [DecidableEq α] {P Q R : Finset α}
    (hPQ : Disjoint P Q) (hR : R ⊆ P ∪ Q) : ((P ∪ Q) \ R) \ Q = P ↔ R ⊆ Q := by
  constructor
  · intro h m hm
    cases Finset.mem_union.1 (hR hm) with
    | inl hP =>
      rw [← h, Finset.mem_sdiff, Finset.mem_sdiff] at hP
      exact absurd hm hP.1.2
    | inr hQ => exact hQ
  · intro h
    rw [sdiff_right_comm, Finset.union_sdiff_cancel_right hPQ]
    exact Finset.sdiff_eq_self_of_disjoint (hPQ.mono_right h)

theorem Oldest.eq_of_mem {K : List (Save S L)} {c : Save S L} (h : Follows K c) {removed : List Name}
    (holdest : Oldest defaultKeepLastN ((K ++ [c]).map Save.name).toFinset removed)
    (hK : K.length = defaultKeepLastN) {m : Name} (hm : m ∈ removed) :
    ∃ e ∈ K, e.name = m ∧ ∀ s ∈ K, e.step ≤ s.step := by
  have hone : removed = [m] := by
    have hlength : removed.length = 1 := by
      rw [holdest.length, List.toFinset_card_of_nodup h.nodup_names, List.length_map,
        List.length_append, hK]
      rfl
    obtain ⟨n, rfl⟩ := List.length_eq_one_iff.1 hlength
    rw [List.mem_singleton.1 hm]
  obtain ⟨e, he, hname⟩ := List.mem_map.1 (List.mem_toFinset.1 (holdest.subset m hm))
  have hle : ∀ s ∈ K, e.step ≤ s.step := by
    intro s hs
    have hs' := List.mem_append_left [c] hs
    by_cases hsame : s.name = m
    · rw [h.name_inj he hs' (hname.trans hsame.symm)]
    · have hkey := holdest.le m hm s.name (List.mem_toFinset.2 (List.mem_map_of_mem hs'))
        (by rw [hone]; simpa using hsame)
      rwa [← hname, stepKey_name, stepKey_name] at hkey
  cases List.mem_append.1 he with
  | inl he => exact ⟨e, he, hname, hle⟩
  | inr he =>
    -- the new checkpoint is newer than the others
    obtain ⟨s, hs⟩ := List.exists_mem_of_length_pos
      (show 0 < K.length by rw [hK]; decide)
    rw [List.mem_singleton.1 he] at hle
    exact absurd (h.newer s hs) (Nat.not_lt.2 (hle s hs))

section Policy
variable [LinearOrder L] {keepLastN : ℕ} {saves : List (Save S L)} {st : Saver S L}

theorem completed_saveAndPrune (h : Retained keepLastN saves st) (a : SaveArgs S L) :
    ∃ removed, Oldest defaultKeepLastN (insert a.save.name (completed st.disk)) removed ∧
      completed (saveAndPrune keepLastN st a).disk =
        (insert a.save.name (completed st.disk) \ removed.toFinset) \
          (((sortBy Save.avgLoss (lowest Save.avgLoss keepLastN saves ++ [a.save])).drop
            keepLastN).map Save.name).toFinset := by
  obtain ⟨removed, holdest, hsaved⟩ := completed_saveCheckpoint a.call (Nat.succ_ne_zero 2)
    (exec st.disk [.mkdir []])
  rw [completed_mkdir] at holdest hsaved
  refine ⟨removed, holdest, ?_⟩
  have hphases : (saveAndPrune keepLastN st a).disk = execAll
      ((popped keepLastN st.best a.save).2.map (fun old => fun t => rmtree a.order t [old.2]))
      (saveCheckpoint a.call (exec st.disk [.mkdir []])) := execAll_append _ _ _
  rw [hphases, completed_prune, hsaved, h.best, popped_eq, List.map_reverse,
    List.toFinset_reverse, List.map_map]
  rfl

theorem Follows.lowest {c : Save S L} (h : Follows saves c) (keepLastN : ℕ) :
    Follows (lowest Save.avgLoss keepLastN saves) c where
  newer := fun s hs => h.newer s (mem_of_mem_lowest _ hs)
  steps := ((sortBy_perm _ saves).map _).nodup_iff.2 h.steps |>.sublist
    ((List.take_sublist _ _).map _)
  losses := (((sortBy_perm _ saves).append_right [c]).map _).nodup_iff.2 h.losses |>.sublist
    (((List.take_sublist _ _).append_right _).map _)

theorem oldest_dropped_iff {K : List (Save S L)} {c : Save S L} (h : Follows K c)
    {removed : List Name}
    (holdest : Oldest defaultKeepLastN ((K ++ [c]).map Save.name).toFinset removed)
    (hK : K.length = defaultKeepLastN) :
    (∀ m ∈ removed, m ∈ ((sortBy Save.avgLoss (K ++ [c])).drop defaultKeepLastN).map Save.name) ↔
      ∀ old ∈ K, (∀ s ∈ K, old.step ≤ s.step) → ∀ s ∈ K ++ [c], s.avgLoss ≤ old.avgLoss := by
  have hone : (K ++ [c]).length = defaultKeepLastN + 1 := by
    rw [List.length_append, hK]
    rfl
  constructor
  · intro hsub old hold hmin s hs
    have hremoved : removed.length = 1 := by
      rw [holdest.length, List.toFinset_card_of_nodup h.nodup_names, List.length_map, hone]
      rfl
    have hold' := List.mem_append_left [c] hold
    obtain ⟨m, hm⟩ := List.exists_mem_of_length_pos (show 0 < removed.length by omega)
    obtain ⟨e, he, hname, hle⟩ := holdest.eq_of_mem h hK hm
    have hsame : e = old := List.inj_on_of_nodup_map h.steps he hold
      (Nat.le_antisymm (hle old hold) (hmin e he))
    obtain ⟨w, hw, hwname⟩ := List.mem_map.1 (hsub m hm)
    have hwold : w = old :=
      h.name_inj ((sortBy_perm Save.avgLoss (K ++ [c])).mem_iff.1 (List.mem_of_mem_drop hw)) hold'
        (by rw [hwname, ← hname, hsame])
    rw [hwold] at hw
    exact (mem_drop_sortBy_iff _ hone h.losses hold').1 hw s hs
  · intro hworst m hm
    obtain ⟨e, he, hname, hle⟩ := holdest.eq_of_mem h hK hm
    rw [← hname]
    apply List.mem_map_of_mem
    exact (mem_drop_sortBy_iff _ hone h.losses (List.mem_append_left [c] he)).2 (hworst e he hle)

theorem removed_iff_spared {c : Save S L} (h : Follows saves c) {removed : List Name}
    (holdest : Oldest defaultKeepLastN
      ((lowest Save.avgLoss keepLastN saves ++ [c]).map Save.name).toFinset removed) :
    (∀ m ∈ removed, m ∈ ((sortBy Save.avgLoss (lowest Save.avgLoss keepLastN saves ++ [c])).drop
      keepLastN).map Save.name) ↔ Spared keepLastN saves c := by
  have hlimit : (lowest Save.avgLoss keepLastN saves).length ≤ keepLastN := by
    rw [length_lowest]
    exact Nat.min_le_left _ _
  have hfollows := h.lowest keepLastN
  rw [Spared]
  generalize lowest Save.avgLoss keepLastN saves = K at hlimit hfollows holdest ⊢
  have hremoved : removed.length = K.length + 1 - defaultKeepLastN := by
    rw [holdest.length, List.toFinset_card_of_nodup hfollows.nodup_names, List.length_map,
      List.length_append]
    rfl
  by_cases hroom : K.length < defaultKeepLastN
  · -- nothing is pruned
    have hnone : removed = [] := List.length_eq_zero_iff.1 (by omega)
    simp [hnone, hroom]
  · by_cases hkeep : keepLastN = defaultKeepLastN
    · subst hkeep
      have hfull : K.length = defaultKeepLastN := by omega
      rw [oldest_dropped_iff hfollows holdest hfull]
      simp [hroom]
    · -- more are pruned than dropped
      have hmore : ¬∀ m ∈ removed, m ∈ ((sortBy Save.avgLoss (K ++ [c])).drop
          keepLastN).map Save.name := by
        intro hsub
        have hfew := (holdest.nodup.subperm hsub).length_le
        rw [List.length_map, List.length_drop, length_sortBy, List.length_append,
          List.length_singleton] at hfew
        omega
      refine iff_of_false hmore ?_
      simp [hroom, hkeep]

theorem retained_step_iff {a : SaveArgs S L} (hfollows : Follows saves a.save)
    (h : Retained keepLastN saves st) :
    Retained keepLastN (saves ++ [a.save]) (saveAndPrune keepLastN st a) ↔
      Spared keepLastN saves a.save := by
  have hbest : (saveAndPrune keepLastN st a).best =
      (lowest Save.avgLoss keepLastN (saves ++ [a.save])).map Save.entry := by
    rw [saveAndPrune, h.best, popped_eq, lowest_concat _ hfollows.losses]
  have hnames : ∀ l : List (Save S L), (l.map Save.entry).map Prod.snd = l.map Save.name := by
    intro l
    rw [List.map_map]
    rfl
  have hdisk : completed st.disk =
      ((lowest Save.avgLoss keepLastN saves).map Save.name).toFinset := by
    rw [h.onDisk, h.best, hnames]
  obtain ⟨removed, holdest, hafter⟩ := completed_saveAndPrune h a
  rw [hdisk, names_concat] at holdest hafter
  rw [← removed_iff_spared hfollows holdest]
  have hperm := (sortBy_perm Save.avgLoss
    (lowest Save.avgLoss keepLastN saves ++ [a.save])).map Save.name
  have hsplit : ((lowest Save.avgLoss keepLastN saves ++ [a.save]).map Save.name).toFinset =
      ((lowest Save.avgLoss keepLastN (saves ++ [a.save])).map Save.name).toFinset ∪
        (((sortBy Save.avgLoss (lowest Save.avgLoss keepLastN saves ++ [a.save])).drop
          keepLastN).map Save.name).toFinset := by
    rw [← lowest_concat _ hfollows.losses, ← List.toFinset_append, ← List.map_append,
      lowest_append_drop, List.toFinset_eq_of_perm _ _ hperm]
  have hdisjoint : Disjoint
      ((lowest Save.avgLoss keepLastN (saves ++ [a.save])).map Save.name).toFinset
      (((sortBy Save.avgLoss (lowest Save.avgLoss keepLastN saves ++ [a.save])).drop
        keepLastN).map Save.name).toFinset := by
    have hnodup := hperm.nodup_iff.2 (hfollows.lowest keepLastN).nodup_names
    rw [← List.take_append_drop keepLastN (sortBy Save.avgLoss _), List.map_append] at hnodup
    rw [← lowest_concat _ hfollows.losses, List.disjoint_toFinset_iff_disjoint]
    exact List.disjoint_of_nodup_append hnodup
  have hsub : removed.toFinset ⊆
      ((lowest Save.avgLoss keepLastN saves ++ [a.save]).map Save.name).toFinset :=
    fun m hm => holdest.subset m (List.mem_toFinset.1 hm)
  rw [hsplit] at hafter hsub
  constructor
  · intro hkept m hm
    have honDisk := hkept.onDisk
    rw [hbest, hnames, hafter, sdiff_sdiff_eq_iff hdisjoint hsub] at honDisk
    exact List.mem_toFinset.1 (honDisk (List.mem_toFinset.2 hm))
  · intro hin
    refine ⟨?_, hbest⟩
    rw [hbest, hnames, hafter, sdiff_sdiff_eq_iff hdisjoint hsub]
    exact fun m hm => List.mem_toFinset.2 (hin m (List.mem_toFinset.1 hm))

/-- After every call of a run the lowest losses are what is on disk and in `best_ckpts`, exactly if
no call prunes by age what should be kept by loss. -/
theorem retained_throughout_iff (keepLastN : ℕ) (es : List (SaveArgs S L))
    (hsteps : (es.map (fun a => a.save.step)).Pairwise (· < ·))
    (hlosses : (es.map (fun a => a.save.avgLoss)).Nodup) :
    (∀ l, l <+: es → Retained keepLastN (l.map SaveArgs.save)
        (Run.exec (saveAndPrune keepLastN) Saver.empty l)) ↔
      ∀ l a, l ++ [a] <+: es → Spared keepLastN (l.map SaveArgs.save) a.save := by
  apply Run.throughout_iff
  · exact ⟨rfl, by simp [Saver.empty, lowest, sortBy]⟩
  · intro l a hl hkept
    have hfollows : Follows (l.map SaveArgs.save) a.save := by
      have hsteps := hsteps.sublist (hl.sublist.map _)
      rw [List.map_append, List.pairwise_append] at hsteps
      refine ⟨?_, ?_, ?_⟩
      · intro s hs
        obtain ⟨b, hb, rfl⟩ := List.mem_map.1 hs
        exact hsteps.2.2 _ (List.mem_map_of_mem hb) _ (by simp)
      · rw [List.map_map]
        exact hsteps.1.imp Nat.ne_of_lt
      · have hlosses := hlosses.sublist (hl.sublist.map _)
        simpa [Function.comp_def] using hlosses
    rw [Run.exec_append, List.map_append]
    exact retained_step_iff hfollows hkept

end Policy

def lossRun (losses : List ℕ) : List (SaveArgs ℕ ℕ) :=
  (losses.zipIdx 1).map (fun e => ⟨⟨e.2, ∅, ∅, e.1⟩, .asStored, .deepestFirst⟩)

theorem retained_sample : Retained 2 ((lossRun [4, 2, 3]).map SaveArgs.save)
    (Run.exec (saveAndPrune 2) Saver.empty (lossRun [4, 2, 3])) := by
  refine (retained_throughout_iff 2 (lossRun [4, 2, 3]) (by decide) (by decide)).2 ?_ _
    List.prefix_rfl
  intro earlier a _
  left
  rw [length_lowest]
  exact Nat.lt_of_le_of_lt (Nat.min_le_left _ _) (by decide)

/-- Where losses rise, the fourth save loses the first checkpoint to its age and itself to its loss. -/
theorem pruned_twice :
    completed (Run.exec (saveAndPrune 3) Saver.empty (lossRun [1, 2, 3, 4])).disk =
        {stepName 2, stepName 3} ∧
      (Run.exec (saveAndPrune 3) Saver.empty (lossRun [1, 2, 3, 4])).best.map Prod.snd =
        [stepName 1, stepName 2, stepName 3] := by
  decide +kernel

end Slakshna.Checkpoint

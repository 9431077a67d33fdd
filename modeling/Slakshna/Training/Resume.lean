import Mathlib.Data.List.MinMax
import Slakshna.Training.Retention

/-! Resuming: the trainer looks for the newest checkpoint and hands its directory on as if it were
the save directory. A model or an optimizer in memory is the shards that it would write. -/
namespace Slakshna.Checkpoint
open FileTree
variable {S L : Type}

structure Trained (S : Type) where
  model : HashMap Name S
  optim : HashMap Name S

/-! maybe_resume in the distributed package, known to the trainer as load_checkpoint -/

def shardAt (t : Disk S L) (p : List Name) : Option S :=
  match t.lookup p with
  | some (.file (.shard data)) => some data
  | _ => none

/-- Every shard is read anew; one that is not there raises. -/
def dcpLoad (t : Disk S L) (p : List Name) (shards : HashMap Name S) : Option (HashMap Name S) :=
  shards.keys.foldlM (fun m x => (shardAt t (p ++ [x])).map (m.insert x)) shards

/-- The step that `meta.json` tells, if it is there. -/
def metaStep (t : Disk S L) (p : List Name) (startStep : ℕ) : Option ℕ :=
  match t.lookup p with
  | none => some startStep
  | some (.file (.metaJson step _)) => some step
  | some _ => none

def candidatesIn (iter : IterOrder Name) (t : Disk S L) (base : List Name) : List Name :=
  Lowest.sortBy stepKey ((iter.arrange (children t base)).filter (fun name =>
    isDir t (base ++ [name]) && (searchStep true name).isSome &&
      decide (base ++ [name, completeName] ∈ t)))

def loadCheckpoint (iter : IterOrder Name) (t : Disk S L) (saveDir : List Name) (st : Trained S) :
    Option (ℕ × Trained S) :=
  if !isDir t saveDir then some (0, st)
  else
    match (candidatesIn iter t saveDir).getLast? with
    | none => some (0, st)
    | some name => do
      let model ← dcpLoad t (saveDir ++ [name, modelName]) st.model
      let optim ← dcpLoad t (saveDir ++ [name, optimName]) st.optim
      let startStep ← metaStep t (saveDir ++ [name, metaName]) (stepKey name)
      return (startStep, ⟨model, optim⟩)

/-! maybe_resume in the trainer -/

def stepOf (name : Name) : ℕ := (searchStep false name).getD 0

def foundSteps (iter : IterOrder Name) (t : Disk S L) : List Name :=
  (iter.arrange (children t [])).filter (fun name =>
    isDir t [name] && (searchStep false name).isSome)

/-- `max` takes the first of several. -/
def latest (iter : IterOrder Name) (t : Disk S L) : Option Name :=
  (foundSteps iter t).argmax stepOf

def maybeResume (iter : IterOrder Name) (t : Disk S L) (st : Trained S) : Option (ℕ × Trained S) :=
  if !pathExists t [] then some (0, st)
  else
    match latest iter t with
    | none => some (0, st)
    | some name => loadCheckpoint iter t [name] st

/-- A call of `save_and_prune`, or one that is cut after some of its system calls. -/
inductive Event (S L : Type) where
  | saved (a : SaveArgs S L)
  | interrupted (a : SaveArgs S L) (k : ℕ)

/-- A new process starts with no `best_ckpts`. -/
def Saver.next [LinearOrder L] (keepLastN : ℕ) (st : Saver S L) : Event S L → Saver S L
  | .saved a => saveAndPrune keepLastN st a
  | .interrupted a k => ⟨execCut (a.phases keepLastN st.best) k st.disk, []⟩

/-- The newest completed checkpoint is restored, and nothing without a sentinel is selected. -/
structure Resumed (iter : IterOrder Name) (t : Disk S L) (st : Trained S) : Prop where
  restored : ∃ name ∈ completed t, (∀ m ∈ completed t, stepKey m ≤ stepKey name) ∧
    ∃ st', maybeResume iter t st = some (stepKey name, st') ∧
      HasShards t name st'.model st'.optim
  selected : ∀ name, latest iter t = some name → [name, completeName] ∈ t

def StartsIn (names : List Name) (p : List Name) : Prop := ∀ n ∈ p.head?, n ∈ names

def Shaped : List Name → Prop
  | [] => True
  | name :: tail => ∃ step,
      (name = tmpName step ∧ StartsIn [modelName, optimName] tail) ∨
        (name = stepName step ∧ StartsIn [modelName, optimName, metaName, completeName] tail)

theorem shaped_tmp {step : ℕ} {n : Name} {q : List Name} (hn : n = modelName ∨ n = optimName)
    (hq : [tmpName step, n] <+: q) : Shaped q := by
  obtain ⟨tail, rfl⟩ := hq
  refine ⟨step, .inl ⟨rfl, ?_⟩⟩
  intro m hm
  rw [← Option.mem_some.1 hm]
  simpa using hn

theorem shaped_step {step : ℕ} {n : Name} (hn : n = metaName ∨ n = completeName) :
    Shaped [stepName step, n] := by
  refine ⟨step, .inr ⟨rfl, ?_⟩⟩
  intro m hm
  rw [← Option.mem_some.1 hm]
  exact List.mem_cons_of_mem _ (List.mem_cons_of_mem _ (by simpa using hn))

theorem writeTmp_shaped (c : Save S L) (t : Disk S L) :
    ∀ op ∈ writeTmp c t, op.Keeps Shaped := by
  intro op hop
  cases List.mem_append.1 hop with
  | inl hop =>
    cases List.mem_append.1 hop with
    | inl hop =>
      cases List.mem_cons.1 hop with
      | inl hop =>
        rw [hop]
        exact trivial
      | inr hop =>
        rw [List.mem_singleton.1 hop]
        exact ⟨c.step, .inl ⟨rfl, fun _ hm => by cases hm⟩⟩
    | inr hop =>
      exact ((touches_dcpSave _ _ op hop).mono (fun q hq => shaped_tmp (.inl rfl) hq)).keeps
  | inr hop =>
    exact ((touches_dcpSave _ _ op hop).mono (fun q hq => shaped_tmp (.inr rfl) hq)).keeps

theorem renameTmp_shaped (c : Save S L) (t : Disk S L) :
    ∀ op ∈ renameTmp c t, op.Keeps Shaped := by
  intro op hop
  rw [List.mem_singleton.1 hop]
  intro tail htail
  obtain ⟨step, hshape⟩ := htail
  cases hshape with
  | inl hshape =>
    refine ⟨c.step, .inr ⟨rfl, ?_⟩⟩
    intro m hm
    have hin := hshape.2 m hm
    simp only [List.mem_cons, List.not_mem_nil, or_false] at hin ⊢
    exact hin.imp_right .inl
  | inr hshape => exact absurd hshape.1 (tmpName_ne_stepName _ _)

theorem phases_shaped [LinearOrder L] (keepLastN : ℕ) (best : List (L × Name)) (a : SaveArgs S L) :
    ∀ phase ∈ a.phases keepLastN best, ∀ t, ∀ op ∈ phase t, op.Keeps Shaped := by
  intro phase hphase t op hop
  simp only [SaveArgs.phases, SaveArgs.call, Call.phases, writePhases, List.cons_append,
    List.nil_append, List.mem_cons, List.mem_map] at hphase
  obtain rfl | rfl | rfl | rfl | rfl | rfl | rfl | ⟨old, _, rfl⟩ := hphase
  · rw [List.mem_singleton.1 hop]
    exact trivial
  · exact keeps_removal _ t _ op hop
  · exact writeTmp_shaped _ t op hop
  · exact keeps_removal _ t _ op hop
  · exact renameTmp_shaped _ t op hop
  · refine ((touches_finish op hop).mono ?_).keeps
    intro q hq
    cases hq with
    | inl hq => exact hq ▸ shaped_step (.inl rfl)
    | inr hq => exact hq ▸ shaped_step (.inr rfl)
  · rw [cleanupOldCheckpoints] at hop
    split at hop
    · cases hop
    · obtain ⟨m, _, hop⟩ := List.mem_flatMap.1 hop
      exact keeps_rmtree _ t _ op hop
  · exact keeps_rmtree _ t _ op hop

theorem shaped_history [LinearOrder L] (keepLastN : ℕ) (es : List (Event S L)) :
    ∀ p ∈ (Run.exec (Saver.next keepLastN) Saver.empty es).disk, Shaped p := by
  induction es using List.reverseRecOn with
  | nil =>
    intro p hp
    cases hp
  | append_singleton es e ih =>
    have hphases := fun a => phases_shaped keepLastN
      (Run.exec (Saver.next keepLastN) Saver.empty es).best (S := S) a
    rw [Run.exec_append]
    cases e with
    | saved a => exact forall_mem_execAll (hphases a) ih
    | interrupted a k => exact forall_mem_execCut (hphases a) k ih

section Shape
variable {t : Disk S L} {iter : IterOrder Name} {st : Trained S}

theorem mem_foundSteps {name : Name} : name ∈ foundSteps iter t ↔
    isDir t [name] = true ∧ (searchStep false name).isSome := by
  rw [foundSteps, List.mem_filter, (iter.perm _).mem_iff, mem_children, Bool.and_eq_true,
    and_iff_right_iff_imp]
  intro h
  exact AList.lookup_isSome.1 (by rw [List.nil_append, isDir_iff.1 h.1]; rfl)

theorem completed_shape (hshaped : ∀ p ∈ t, Shaped p) {name : Name} (h : name ∈ completed t) :
    ∃ step, name = stepName step := by
  obtain ⟨_, hsearch, hmem⟩ := isCompleted_iff.1 (mem_completed.1 h)
  obtain ⟨step, hshape⟩ := hshaped _ hmem
  cases hshape with
  | inl htmp =>
    rw [htmp.1, searchStep_tmpName] at hsearch
    cases hsearch
  | inr hstep => exact ⟨step, hstep.1⟩

theorem candidatesIn_eq_nil (hshaped : ∀ p ∈ t, Shaped p) (name : Name) :
    candidatesIn iter t [name] = [] := by
  have hnone : (iter.arrange (children t [name])).filter (fun n =>
      isDir t ([name] ++ [n]) && (searchStep true n).isSome &&
        decide ([name] ++ [n, completeName] ∈ t)) = [] := by
    rw [List.filter_eq_nil_iff]
    intro n hn
    have hmem := mem_children.1 ((iter.perm _).mem_iff.1 hn)
    have hin : n ∈ [modelName, optimName, metaName, completeName] := by
      obtain ⟨step, hshape⟩ := hshaped _ hmem
      cases hshape with
      | inl htmp => exact List.mem_append_left [metaName, completeName] (htmp.2 n rfl)
      | inr hstep => exact hstep.2 n rfl
    have hsearch : searchStep true n = none := by
      simp only [List.mem_cons, List.not_mem_nil, or_false] at hin
      obtain rfl | rfl | rfl | rfl := hin
      all_goals decide
    simp [hsearch]
  rw [candidatesIn, hnone]
  rfl

theorem maybeResume_eq (hshaped : ∀ p ∈ t, Shaped p) : maybeResume iter t st = some (0, st) := by
  rw [maybeResume]
  split
  · rfl
  · split
    · rfl
    · next name _ =>
      rw [loadCheckpoint, candidatesIn_eq_nil hshaped]
      split
      · rfl
      · rfl

def listFirst (name : Name) : IterOrder Name where
  arrange := fun l => if name ∈ l then name :: l.erase name else l
  perm := by
    intro l
    split
    · next h => exact (List.perm_cons_erase h).symm
    · exact List.Perm.refl l

theorem latest_listFirst {name : Name} (hfound : name ∈ foundSteps iter t)
    (hmax : ∀ m ∈ foundSteps iter t, stepOf m ≤ stepOf name) :
    latest (listFirst name) t = some name := by
  have hmem : name ∈ children t [] :=
    (iter.perm _).mem_iff.1 (List.mem_of_mem_filter hfound)
  have hlist : foundSteps (listFirst name) t =
      name :: ((children t []).erase name).filter (fun m =>
        isDir t [m] && (searchStep false m).isSome) := by
    have harrange : (listFirst name).arrange (children t []) = name :: (children t []).erase name :=
      if_pos hmem
    rw [foundSteps, harrange, List.filter_cons_of_pos]
    rw [Bool.and_eq_true]
    exact mem_foundSteps.1 hfound
  rw [latest, hlist, List.argmax_cons]
  cases hrest : List.argmax stepOf (((children t []).erase name).filter (fun m =>
      isDir t [m] && (searchStep false m).isSome)) with
  | none => rfl
  | some m =>
    have hm : m ∈ foundSteps (listFirst name) t := by
      rw [hlist]
      exact List.mem_cons_of_mem _ (List.argmax_mem hrest)
    exact if_neg (Nat.not_lt.2 (hmax m (mem_foundSteps.2 (mem_foundSteps.1 hm))))

/-- Only checkpoints of step 0 are there, all complete, and the trained state is already what one
of them holds. -/
structure OnlyStart (t : Disk S L) (st : Trained S) : Prop where
  complete : ∀ name, isDir t [name] = true → ∀ step, searchStep false name = some step →
    step = 0 ∧ [name, completeName] ∈ t
  same : ∃ name ∈ completed t, HasShards t name st.model st.optim

theorem stepKey_eq_of_completed (iter : IterOrder Name) (hshaped : ∀ p ∈ t, Shaped p) {name : Name}
    (h : name ∈ completed t) : name ∈ foundSteps iter t ∧ stepOf name = stepKey name := by
  obtain ⟨step, rfl⟩ := completed_shape hshaped h
  have hdir := (isCompleted_iff.1 (mem_completed.1 h)).1
  rw [mem_foundSteps, isDir_iff, stepOf, stepKey, searchStep_stepName, searchStep_stepName]
  exact ⟨⟨hdir, rfl⟩, rfl⟩

theorem completed_of_found (hshaped : ∀ p ∈ t, Shaped p) {name : Name}
    (h : name ∈ foundSteps iter t) (hcomplete : [name, completeName] ∈ t) :
    name ∈ completed t := by
  obtain ⟨step, hshape⟩ := hshaped _ hcomplete
  cases hshape with
  | inl htmp =>
    have hin := htmp.2 completeName rfl
    simp [completeName, modelName, optimName] at hin
  | inr hstep =>
    have hdir := isDir_iff.1 (mem_foundSteps.1 h).1
    rw [mem_completed, isCompleted_iff]
    refine ⟨hdir, ?_, hcomplete⟩
    rw [hstep.1, searchStep_stepName]
    rfl

theorem not_onlyStart_of_leftover (hshaped : ∀ p ∈ t, Shaped p) {step : ℕ}
    (hleft : isDir t [tmpName step] = true) : ¬OnlyStart t st := by
  intro h
  have hsearch := searchStep_tmpName_unanchored step
  have hfound : tmpName step ∈ foundSteps .asStored t :=
    mem_foundSteps.2 ⟨hleft, by rw [hsearch]; rfl⟩
  have hdone := completed_of_found hshaped hfound (h.complete _ hleft step hsearch).2
  have hanchored := (isCompleted_iff.1 (mem_completed.1 hdone)).2.1
  rw [searchStep_tmpName] at hanchored
  cases hanchored

theorem resumed_iff_onlyStart (hshaped : ∀ p ∈ t, Shaped p) :
    (∀ iter, Resumed iter t st) ↔ OnlyStart t st := by
  constructor
  · intro h
    obtain ⟨name, hname, hmax, st', hresult, hshards⟩ := (h .asStored).restored
    rw [maybeResume_eq hshaped] at hresult
    obtain ⟨hzero, hst⟩ := Prod.ext_iff.1 (Option.some.inj hresult)
    simp only at hzero hst
    refine ⟨?_, name, hname, hst ▸ hshards⟩
    -- whatever is found first is complete, so the highest step found is that of a checkpoint
    have hall : ∀ m ∈ foundSteps .asStored t, stepOf m = 0 := by
      intro m hm
      obtain ⟨d, hd⟩ : ∃ d, latest .asStored t = some d := by
        rw [← Option.ne_none_iff_exists', latest, ne_eq, List.argmax_eq_none]
        exact List.ne_nil_of_mem hm
      have hcomplete := (h .asStored).selected d hd
      have hfound := List.argmax_mem hd
      have hdone := completed_of_found hshaped hfound hcomplete
      have hkey := (stepKey_eq_of_completed .asStored hshaped hdone).2
      have hle := List.le_of_mem_argmax hm hd
      have hbound := hmax d hdone
      omega
    intro n hn step hstep
    have hfound : n ∈ foundSteps .asStored t := mem_foundSteps.2 ⟨hn, by rw [hstep]; rfl⟩
    refine ⟨?_, ?_⟩
    · have hkey := hall n hfound
      rwa [stepOf, hstep] at hkey
    · apply (h (listFirst n)).selected n
      apply latest_listFirst hfound
      intro m hm
      rw [hall m hm]
      exact Nat.zero_le _
  · intro h iter
    obtain ⟨name, hname, hshards⟩ := h.same
    have hzero : ∀ m ∈ completed t, stepKey m = 0 := by
      intro m hm
      obtain ⟨hfound, hkey⟩ := stepKey_eq_of_completed iter hshaped hm
      obtain ⟨hdir, hsearch⟩ := mem_foundSteps.1 hfound
      obtain ⟨step, hstep⟩ := Option.isSome_iff_exists.1 hsearch
      rw [← hkey, stepOf, hstep]
      exact (h.complete m hdir step hstep).1
    refine ⟨⟨name, hname, ?_, st, ?_, hshards⟩, ?_⟩
    · intro m hm
      rw [hzero m hm]
      exact Nat.zero_le _
    · rw [hzero name hname, maybeResume_eq hshaped]
    · intro d hd
      obtain ⟨hdir, hsearch⟩ := mem_foundSteps.1 (List.argmax_mem hd)
      obtain ⟨step, hstep⟩ := Option.isSome_iff_exists.1 hsearch
      exact (h.complete d hdir step hstep).2

theorem dcpLoad_eq {p : List Name} {shards saved : HashMap Name S}
    (hsaved : ∀ x, t.lookup (p ++ [x]) = (saved.lookup x).map (fun d => .file (.shard d)))
    (hkeys : ∀ x, x ∈ shards ↔ x ∈ saved) :
    ∃ m, dcpLoad t p shards = some m ∧ ∀ x, m.lookup x = saved.lookup x := by
  have hread : ∀ x, shardAt t (p ++ [x]) = saved.lookup x := by
    intro x
    rw [shardAt, hsaved]
    cases saved.lookup x <;> rfl
  have hfold : ∀ (ks : List Name) (m : HashMap Name S), (∀ x ∈ ks, x ∈ saved) →
      ∃ m', ks.foldlM (fun m x => (shardAt t (p ++ [x])).map (m.insert x)) m = some m' ∧
        ∀ x, m'.lookup x = if x ∈ ks then saved.lookup x else m.lookup x := by
    intro ks
    induction ks with
    | nil => exact fun m _ => ⟨m, rfl, fun x => rfl⟩
    | cons k ks ih =>
      intro m hks
      obtain ⟨d, hd⟩ := Option.isSome_iff_exists.1 (AList.lookup_isSome.2 (hks k List.mem_cons_self))
      obtain ⟨m', hm', hlookup⟩ := ih (m.insert k d) (fun x hx => hks x (List.mem_cons_of_mem _ hx))
      refine ⟨m', ?_, ?_⟩
      · rw [List.foldlM_cons, hread, hd]
        exact hm'
      · intro x
        rw [hlookup]
        by_cases hx : x ∈ ks
        · simp [hx]
        · by_cases hxk : x = k
          · subst hxk
            simp [hx, hd]
          · simp [hx, hxk, AList.lookup_insert_ne hxk]
  obtain ⟨m, hm, hlookup⟩ := hfold shards.keys shards (fun x hx => (hkeys x).1 hx)
  refine ⟨m, hm, ?_⟩
  intro x
  rw [hlookup]
  split
  · rfl
  · next hx =>
    rw [AList.lookup_eq_none.2 hx, AList.lookup_eq_none.2 (fun h => hx ((hkeys x).2 h))]

theorem getLast_candidatesIn {name : Name} (hname : name ∈ completed t)
    (hlast : ∀ m ∈ completed t, m ≠ name → stepKey m < stepKey name) :
    (candidatesIn iter t []).getLast? = some name := by
  have hcandidates : candidatesIn iter t [] = candidates iter t := rfl
  have hmem : ∀ m, m ∈ candidates iter t ↔ m ∈ completed t := by
    intro m
    rw [← toFinset_candidates iter t, List.mem_toFinset]
  have hne := List.ne_nil_of_mem ((hmem name).2 hname)
  obtain ⟨m, hm⟩ : ∃ m, (candidates iter t).getLast? = some m :=
    ⟨_, List.getLast?_eq_some_getLast hne⟩
  obtain ⟨hin, hle⟩ := Lowest.mem_of_getLast?_sortBy stepKey hm
  have hcompleted := (hmem m).1 ((Lowest.sortBy_perm _ _).mem_iff.2 hin)
  have hmax := hle name ((Lowest.sortBy_perm _ _).mem_iff.1 ((hmem name).2 hname))
  rw [hcandidates, hm]
  by_contra hother
  have hlt := hlast m hcompleted (fun h => hother (h ▸ rfl))
  omega

theorem loadCheckpoint_restores {name : Name} {c : Save S L} (hroot : isDir t [] = true)
    (hname : name ∈ completed t)
    (hlast : ∀ m ∈ completed t, m ≠ name → stepKey m < stepKey name) (hholds : Holds t name c)
    (hmodel : ∀ x, x ∈ st.model ↔ x ∈ c.model) (hoptim : ∀ x, x ∈ st.optim ↔ x ∈ c.optim) :
    ∃ st', loadCheckpoint iter t [] st = some (c.step, st') ∧
      HasShards t name st'.model st'.optim := by
  obtain ⟨model, hloaded, hmodelLookup⟩ :=
    dcpLoad_eq (p := [name, modelName]) hholds.shards.model hmodel
  obtain ⟨optim, hloaded', hoptimLookup⟩ :=
    dcpLoad_eq (p := [name, optimName]) hholds.shards.optim hoptim
  have hstep : metaStep t [name, metaName] (stepKey name) = some c.step := by
    rw [metaStep, hholds.metaJson]
  refine ⟨⟨model, optim⟩, ?_, ?_, ?_⟩
  · rw [loadCheckpoint, hroot, getLast_candidatesIn hname hlast]
    simp [hloaded, hloaded', hstep]
  · intro x
    rw [hholds.shards.model, hmodelLookup]
  · intro x
    rw [hholds.shards.optim, hoptimLookup]

end Shape

/-- After any history the trainer resumes as it should, in whatever order the directory is listed,
exactly if there was nothing to restore: only complete checkpoints of step 0, and one of them is
what model and optimizer already are. -/
theorem resumed_iff [LinearOrder L] (keepLastN : ℕ) (es : List (Event S L)) (st : Trained S) :
    (∀ iter, Resumed iter (Run.exec (Saver.next keepLastN) Saver.empty es).disk st) ↔
      OnlyStart (Run.exec (Saver.next keepLastN) Saver.empty es).disk st :=
  resumed_iff_onlyStart (shaped_history keepLastN es)

def oneShard (step : ℕ) : SaveArgs ℕ ℕ :=
  ⟨⟨step, AList.singleton ['0'] 7, ∅, 0⟩, .asStored, .deepestFirst⟩

/-- After a save of step 5 a model with another shard is not restored, and after an interrupted save
of step 9 its leftover is selected. -/
theorem resume_restarts :
    let saved := (Run.exec (Saver.next 3) Saver.empty [.saved (oneShard 5)]).disk
    let interrupted := (Run.exec (Saver.next 3) Saver.empty
      [.saved (oneShard 5), .interrupted (oneShard 9) 4]).disk
    completed saved = {stepName 5} ∧
      (maybeResume .asStored saved ⟨AList.singleton ['0'] 1, ∅⟩).map
        (fun r => (r.1, r.2.model.lookup ['0'])) = some (0, some 1) ∧
      completed interrupted = {stepName 5} ∧ latest .asStored interrupted = some (tmpName 9) := by
  decide +kernel

end Slakshna.Checkpoint

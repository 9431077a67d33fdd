import Mathlib.Data.Finset.Card
import Slakshna.Training.Checkpoint

/-! What one save leaves on disk, phase by phase: its own directory and, on the way, a temporary
one. -/
namespace Slakshna.Checkpoint
open FileTree
variable {S L : Type} {t : Disk S L} {c : Save S L}

structure HasShards (t : Disk S L) (name : Name) (model optim : HashMap Name S) : Prop where
  model : ∀ x, t.lookup [name, modelName, x] = (model.lookup x).map (fun d => .file (.shard d))
  optim : ∀ x, t.lookup [name, optimName, x] = (optim.lookup x).map (fun d => .file (.shard d))

theorem HasShards.of_lookup {t' : Disk S L} {name name' : Name} {model optim : HashMap Name S}
    (h : HasShards t name model optim)
    (hmodel : ∀ x, t'.lookup [name', modelName, x] = t.lookup [name, modelName, x])
    (hoptim : ∀ x, t'.lookup [name', optimName, x] = t.lookup [name, optimName, x]) :
    HasShards t' name' model optim where
  model := fun x => (hmodel x).trans (h.model x)
  optim := fun x => (hoptim x).trans (h.optim x)

structure Holds (t : Disk S L) (name : Name) (c : Save S L) : Prop where
  shards : HasShards t name c.model c.optim
  metaJson : t.lookup [name, metaName] = some (.file (.metaJson c.step c.avgLoss))

theorem Holds.frame {t' : Disk S L} {name : Name} (h : Holds t name c)
    (hsame : ∀ p, [name] <+: p → t'.lookup p = t.lookup p) : Holds t' name c where
  shards := h.shards.of_lookup (fun _ => hsame _ (by simp)) (fun _ => hsame _ (by simp))
  metaJson := (hsame _ (by simp)).trans h.metaJson

theorem flatMap_rmtree (order : DeleteOrder Name) (t : Disk S L) (names : List Name) :
    names.flatMap (fun name => rmtree order t [name]) =
      (names.flatMap (fun name => order.arrange (below t [name]))).map Op.delete := by
  rw [List.map_flatMap]
  rfl

theorem not_mem_removal (order : DeleteOrder Name) {name : Name} {p : List Name}
    (hp : [name] <+: p) :
    p ∉ exec t (if pathExists t [name] then rmtree order t [name] else []) := by
  intro hmem
  by_cases hexists : pathExists t [name] = true
  · rw [if_pos hexists, rmtree, exec_deletes, ← AList.lookup_isSome, lookup_eraseAll] at hmem
    by_cases hpt : p ∈ t
    · rw [if_pos ((order.perm _).mem_iff.2 (mem_below.2 ⟨hpt, hp⟩))] at hmem
      cases hmem
    · rw [AList.lookup_eq_none.2 hpt, ite_self] at hmem
      cases hmem
  · rw [if_neg hexists] at hmem
    exact hexists (pathExists_iff.2 ⟨p, hmem, hp⟩)

theorem touches_dcpSave (p : List Name) (shards : HashMap Name S) :
    ∀ op ∈ dcpSave (L := L) p shards, op.Touches (fun q => p <+: q) := by
  intro op hop
  cases List.mem_cons.1 hop with
  | inl hop =>
    rw [hop]
    exact List.prefix_rfl
  | inr hop =>
    obtain ⟨e, _, hop⟩ := List.mem_flatMap.1 hop
    cases List.mem_cons.1 hop with
    | inl hop =>
      rw [hop]
      exact List.prefix_append _ _
    | inr hop =>
      rw [List.mem_singleton.1 hop]
      exact List.prefix_append _ _

theorem lookup_writes (p : List Name) (x : Name) {es : List (Sigma fun _ : Name => S)}
    (hes : es.NodupKeys) (t : Disk S L) :
    (exec t (es.flatMap (fun e =>
      [.write (p ++ [e.1]) .empty, .write (p ++ [e.1]) (.shard e.2)]))).lookup (p ++ [x]) =
      match es.dlookup x with
      | some d => some (.file (.shard d))
      | none => t.lookup (p ++ [x]) := by
  induction es generalizing t with
  | nil => rfl
  | cons e es ih =>
    obtain ⟨hnot, hrest⟩ := List.nodupKeys_cons.1 hes
    rw [List.flatMap_cons, exec_append, ih hrest]
    by_cases hx : x = e.1
    · subst hx
      rw [List.dlookup_eq_none.2 hnot, List.dlookup_cons_eq]
      simp [exec, Op.apply]
    · have hpath : p ++ [x] ≠ p ++ [e.1] := by simpa using hx
      rw [List.dlookup_cons_ne _ _ hx]
      simp [exec, Op.apply, AList.lookup_insert_ne hpath]

theorem lookup_dcpSave (p : List Name) (shards : HashMap Name S) {t : Disk S L} {x : Name}
    (hnone : t.lookup (p ++ [x]) = none) : (exec t (dcpSave p shards)).lookup (p ++ [x]) =
      (shards.lookup x).map (fun d => .file (.shard d)) := by
  have htouches : (Op.mkdir p : Op Name (Content S L)).Touches (fun q => q = p) := rfl
  have hmkdir := lookup_apply htouches t (q := p ++ [x]) (by simp)
  rw [dcpSave, exec, List.foldl_cons, ← exec, lookup_writes p x shards.nodupKeys, hmkdir, hnone,
    AList.lookup]
  cases shards.entries.dlookup x <;> rfl

structure Fresh (t : Disk S L) (name : Name) (c : Save S L) : Prop where
  shards : HasShards t name c.model c.optim
  unsealed : [name, completeName] ∉ t
  isDir : t.lookup [name] = some .dir

theorem lookup_mkdirs {name : Name} (hempty : ∀ p, [name] <+: p → p ∉ t) (tail : List Name) :
    (exec t [.mkdir [], .mkdir [name]]).lookup (name :: tail) =
      if tail = [] then some .dir else none := by
  have hroot : (Op.mkdir [] : Op Name (Content S L)).Touches (fun q => q = []) := rfl
  have hname : (Op.mkdir [name] : Op Name (Content S L)).Touches (fun q => q = [name]) := rfl
  have hfirst := lookup_apply hroot t (q := name :: tail) (by simp)
  have hnone : t.lookup (name :: tail) = none := AList.lookup_eq_none.2 (hempty _ (by simp))
  rw [exec, List.foldl_cons, List.foldl_cons, List.foldl_nil]
  cases tail with
  | nil =>
    have hnot : [name] ∉ (Op.mkdir []).apply t := by
      rw [← AList.lookup_eq_none, hfirst, hnone]
    rw [Op.apply, if_neg hnot, AList.lookup_insert, if_pos rfl]
  | cons n tail =>
    rw [lookup_apply hname _ (by simp), hfirst, hnone, if_neg (List.cons_ne_nil _ _)]

theorem writeTmp_fresh (hempty : ∀ p, [tmpName c.step] <+: p → p ∉ t) :
    Fresh (exec t (writeTmp c t)) (tmpName c.step) c := by
  have hmkdirs := lookup_mkdirs hempty
  rw [writeTmp, exec_append, exec_append]
  refine ⟨⟨?_, ?_⟩, ?_, ?_⟩
  · intro x
    rw [lookup_exec (touches_dcpSave _ _) _ (by simp [modelName, optimName])]
    exact lookup_dcpSave [tmpName c.step, modelName] c.model
      ((hmkdirs [modelName, x]).trans (if_neg (List.cons_ne_nil _ _)))
  · intro x
    have hbefore := hmkdirs [optimName, x]
    rw [if_neg (List.cons_ne_nil _ _)] at hbefore
    have hmodel := lookup_exec (touches_dcpSave [tmpName c.step, modelName] c.model)
      (exec t [.mkdir [], .mkdir [tmpName c.step]]) (q := [tmpName c.step, optimName, x])
      (by simp [modelName, optimName])
    exact lookup_dcpSave [tmpName c.step, optimName] c.optim (hmodel.trans hbefore)
  · rw [← AList.lookup_eq_none,
      lookup_exec (touches_dcpSave _ _) _ (by simp [completeName, optimName]),
      lookup_exec (touches_dcpSave _ _) _ (by simp [completeName, modelName]), hmkdirs,
      if_neg (List.cons_ne_nil _ _)]
  · rw [lookup_exec (touches_dcpSave _ _) _ (by simp),
      lookup_exec (touches_dcpSave _ _) _ (by simp), hmkdirs, if_pos rfl]

theorem touches_writeTmp :
    ∀ op ∈ writeTmp c t, op.Touches (fun q => q = [] ∨ [tmpName c.step] <+: q) := by
  have hbelow : ∀ n q, [tmpName c.step, n] <+: q → q = [] ∨ [tmpName c.step] <+: q :=
    fun n q hq => .inr ((List.prefix_append [_] [n]).trans hq)
  intro op hop
  cases List.mem_append.1 hop with
  | inl hop =>
    cases List.mem_append.1 hop with
    | inl hop =>
      cases List.mem_cons.1 hop with
      | inl hop =>
        rw [hop]
        exact .inl rfl
      | inr hop =>
        rw [List.mem_singleton.1 hop]
        exact .inr List.prefix_rfl
    | inr hop => exact (touches_dcpSave _ _ op hop).mono (hbelow _)
  | inr hop => exact (touches_dcpSave _ _ op hop).mono (hbelow _)

theorem Fresh.frame {t' : Disk S L} {name : Name} (h : Fresh t name c)
    (hsame : ∀ p, [name] <+: p → t'.lookup p = t.lookup p) : Fresh t' name c where
  shards := h.shards.of_lookup (fun _ => hsame _ (by simp)) (fun _ => hsame _ (by simp))
  unsealed := fun hmem => h.unsealed ((mem_iff_of_lookup (hsame _ (by simp))).1 hmem)
  isDir := (hsame _ (by simp)).trans h.isDir

theorem tmpName_ne_stepName (m n : ℕ) : tmpName m ≠ stepName n := by
  intro heq
  have hsearch := congrArg (searchStep true) heq
  rw [searchStep_tmpName, searchStep_stepName] at hsearch
  cases hsearch

theorem rename_fresh (h : Fresh t (tmpName c.step) c)
    (hempty : ∀ p, [stepName c.step] <+: p → p ∉ t) :
    Fresh (exec t (renameTmp c t)) (stepName c.step) c := by
  have hlookup : ∀ tail, (exec t (renameTmp c t)).lookup (stepName c.step :: tail) =
      t.lookup (tmpName c.step :: tail) := by
    intro tail
    have hsource : ¬[tmpName c.step] <+: stepName c.step :: tail :=
      fun hp => tmpName_ne_stepName _ _ (List.cons_prefix_cons.1 hp).1
    have hnone : t.lookup (stepName c.step :: tail) = none :=
      AList.lookup_eq_none.2 (hempty _ (by simp))
    change (renamed [tmpName c.step] [stepName c.step] t).lookup (stepName c.step :: tail) = _
    rw [lookup_renamed, if_neg hsource, hnone]
    by_cases hmem : tmpName c.step :: tail ∈ t
    · exact if_pos ⟨by simp, hmem⟩
    · rw [AList.lookup_eq_none.2 hmem]
      exact if_neg (fun hp => hmem hp.2)
  exact ⟨h.shards.of_lookup (fun _ => hlookup _) (fun _ => hlookup _),
    fun hmem => h.unsealed ((mem_iff_of_lookup (hlookup _)).1 hmem), (hlookup []).trans h.isDir⟩

theorem touches_finish : ∀ op ∈ finish c t, op.Touches (fun q =>
    q = [stepName c.step, metaName] ∨ q = [stepName c.step, completeName]) := by
  intro op hop
  simp only [finish, List.mem_cons, List.not_mem_nil, or_false] at hop
  obtain rfl | rfl | rfl := hop
  · exact .inl rfl
  · exact .inl rfl
  · exact .inr rfl

theorem finish_holds (h : Fresh t (stepName c.step) c) :
    Holds (exec t (finish c t)) (stepName c.step) c := by
  refine ⟨h.shards.of_lookup ?_ ?_, ?_⟩
  · exact fun x => lookup_exec touches_finish t (by simp)
  · exact fun x => lookup_exec touches_finish t (by simp)
  · have hpath : [stepName c.step, metaName] ≠ [stepName c.step, completeName] := by
      simp [metaName, completeName]
    simp only [finish, exec, List.foldl_cons, List.foldl_nil, Op.apply]
    rw [AList.lookup_insert_ne hpath, AList.lookup_insert]

theorem touches_clearPath (order : DeleteOrder Name) :
    ∀ op ∈ clearPath order c t, op.Touches (fun q => [stepName c.step] <+: q) :=
  touches_removal order t _

theorem clearPath_fresh (order : DeleteOrder Name) (h : Fresh t (tmpName c.step) c) :
    Fresh (exec t (clearPath order c t)) (tmpName c.step) c := by
  apply h.frame
  intro p hp
  apply lookup_exec (touches_clearPath order)
  exact fun hstep => tmpName_ne_stepName _ _ (eq_of_below hp hstep)

theorem isCompleted_iff {name : Name} : isCompleted t name = true ↔
    t.lookup [name] = some .dir ∧ (searchStep true name).isSome ∧ [name, completeName] ∈ t := by
  rw [isCompleted, Bool.and_eq_true, Bool.and_eq_true, decide_eq_true_iff, and_assoc, isDir_iff]

theorem isCompleted_congr {t' : Disk S L} {name : Name}
    (hsame : ∀ p, [name] <+: p → t'.lookup p = t.lookup p) :
    isCompleted t' name = isCompleted t name := by
  rw [Bool.eq_iff_iff, isCompleted_iff, isCompleted_iff, hsame _ (by simp),
    mem_iff_of_lookup (hsame [name, completeName] (by simp))]

theorem finish_isCompleted (h : Fresh t (stepName c.step) c) :
    isCompleted (exec t (finish c t)) (stepName c.step) = true := by
  refine isCompleted_iff.2 ⟨?_, ?_, ?_⟩
  · exact (lookup_exec touches_finish t (by simp)).trans h.isDir
  · rw [searchStep_stepName]
    rfl
  · exact (AList.mem_insert _).2 (.inl rfl)

theorem writePhases_sealed (order : DeleteOrder Name) (c : Save S L) (t : Disk S L) :
    Holds (execAll (writePhases order c) t) (stepName c.step) c ∧
      isCompleted (execAll (writePhases order c) t) (stepName c.step) = true := by
  have hempty : ∀ p, [tmpName c.step] <+: p → p ∉ exec t (clearTmp order c t) :=
    fun p hp => not_mem_removal order hp
  have hwritten := clearPath_fresh order (writeTmp_fresh hempty)
  have hfresh := rename_fresh hwritten (fun p hp => not_mem_removal order hp)
  exact ⟨finish_holds hfresh, finish_isCompleted hfresh⟩

theorem touches_writePhases (order : DeleteOrder Name) (c : Save S L) :
    ∀ phase ∈ writePhases order c, ∀ t, ∀ op ∈ phase t, op.Touches (fun q =>
      q = [] ∨ [tmpName c.step] <+: q ∨ [stepName c.step] <+: q) := by
  intro phase hphase t op hop
  simp only [writePhases, List.mem_cons, List.not_mem_nil, or_false] at hphase
  obtain rfl | rfl | rfl | rfl | rfl := hphase
  · exact (touches_removal order t _ op hop).mono (fun q hq => .inr (.inl hq))
  · exact (touches_writeTmp op hop).mono (fun q hq => hq.imp_right .inl)
  · exact (touches_clearPath order op hop).mono (fun q hq => .inr (.inr hq))
  · rw [List.mem_singleton.1 hop]
    exact ⟨fun q hq => .inr (.inl hq), fun q hq => .inr (.inr hq)⟩
  · refine (touches_finish op hop).mono (fun q hq => .inr (.inr ?_))
    cases hq with
    | inl hq => simp [hq]
    | inr hq => simp [hq]

theorem isCompleted_writePhases (order : DeleteOrder Name) (c : Save S L) (t : Disk S L)
    (name : Name) : isCompleted (execAll (writePhases order c) t) name = true ↔
      name = stepName c.step ∨ isCompleted t name = true := by
  by_cases hstep : name = stepName c.step
  · rw [hstep]
    exact iff_of_true (writePhases_sealed order c t).2 (.inl rfl)
  · by_cases htmp : name = tmpName c.step
    · simp [isCompleted_iff, htmp, searchStep_tmpName, tmpName_ne_stepName]
    · rw [isCompleted_congr (t := t), or_iff_right hstep]
      intro p hp
      obtain ⟨tail, rfl⟩ := hp
      apply lookup_execAll (touches_writePhases order c)
      simp [Ne.symm hstep, Ne.symm htmp]

theorem isCompleted_removal (order : DeleteOrder Name) (names : List Name) (t : Disk S L)
    (name : Name) :
    isCompleted (exec t (names.flatMap (fun m => rmtree order t [m]))) name = true ↔
      isCompleted t name = true ∧ name ∉ names := by
  have hmem : ∀ tail, name :: tail ∈ names.flatMap (fun m => order.arrange (below t [m])) ↔
      name ∈ names ∧ name :: tail ∈ t := by
    intro tail
    simp only [List.mem_flatMap, (order.perm _).mem_iff, mem_below, List.cons_prefix_cons]
    constructor
    · intro h
      obtain ⟨m, hm, hmem, rfl, _⟩ := h
      exact ⟨hm, hmem⟩
    · exact fun h => ⟨name, h.1, h.2, rfl, List.nil_prefix⟩
  have hlookup : ∀ tail, (eraseAll (names.flatMap (fun m => order.arrange (below t [m]))) t).lookup
      (name :: tail) = if name ∈ names then none else t.lookup (name :: tail) := by
    intro tail
    rw [lookup_eraseAll]
    by_cases hname : name ∈ names
    · rw [if_pos hname]
      by_cases hin : name :: tail ∈ t
      · rw [if_pos ((hmem tail).2 ⟨hname, hin⟩)]
      · rw [AList.lookup_eq_none.2 hin, ite_self]
    · rw [if_neg hname, if_neg (fun h => hname ((hmem tail).1 h).1)]
  rw [flatMap_rmtree, exec_deletes, isCompleted_iff, isCompleted_iff, hlookup]
  by_cases hname : name ∈ names
  · simp [hname]
  · have hcomplete := hlookup [completeName]
    rw [if_neg hname] at hcomplete
    rw [if_neg hname, mem_iff_of_lookup hcomplete]
    exact (and_iff_left hname).symm

def completed (t : Disk S L) : Finset Name := ((children t []).filter (isCompleted t)).toFinset

theorem mem_completed {name : Name} : name ∈ completed t ↔ isCompleted t name = true := by
  rw [completed, List.mem_toFinset, List.mem_filter, mem_children]
  constructor
  · exact fun h => h.2
  · intro h
    have hdir := (isCompleted_iff.1 h).1
    exact ⟨AList.lookup_isSome.1 (by rw [List.nil_append, hdir]; rfl), h⟩

theorem completed_writePhases (order : DeleteOrder Name) (c : Save S L) (t : Disk S L) :
    completed (execAll (writePhases order c) t) = insert (stepName c.step) (completed t) := by
  ext name
  rw [Finset.mem_insert, mem_completed, mem_completed, isCompleted_writePhases]

theorem completed_removal (order : DeleteOrder Name) (names : List Name) (t : Disk S L) :
    completed (exec t (names.flatMap (fun m => rmtree order t [m]))) =
      completed t \ names.toFinset := by
  ext name
  rw [Finset.mem_sdiff, mem_completed, mem_completed, isCompleted_removal, List.mem_toFinset]

theorem nodup_candidates (iter : IterOrder Name) (t : Disk S L) : (candidates iter t).Nodup := by
  rw [candidates, (Lowest.sortBy_perm stepKey _).nodup_iff]
  exact ((iter.perm _).nodup_iff.2 (nodup_children t [])).filter _

theorem toFinset_candidates (iter : IterOrder Name) (t : Disk S L) :
    (candidates iter t).toFinset = completed t := by
  rw [candidates, List.toFinset_eq_of_perm _ _ (Lowest.sortBy_perm stepKey _), completed,
    List.toFinset_eq_of_perm _ _ ((iter.perm _).filter _)]

structure Oldest (keep : ℕ) (names : Finset Name) (removed : List Name) : Prop where
  nodup : removed.Nodup
  length : removed.length = names.card - keep
  subset : ∀ m ∈ removed, m ∈ names
  le : ∀ m ∈ removed, ∀ n ∈ names, n ∉ removed → stepKey m ≤ stepKey n

theorem oldest_candidates (iter : IterOrder Name) (keep : ℕ) (t : Disk S L) :
    Oldest keep (completed t)
      ((candidates iter t).take ((candidates iter t).length - keep)) := by
  have hnodup := nodup_candidates iter t
  rw [← toFinset_candidates iter t]
  refine ⟨hnodup.sublist (List.take_sublist _ _), ?_, ?_, ?_⟩
  · rw [List.length_take, List.toFinset_card_of_nodup hnodup]
    omega
  · exact fun m hm => List.mem_toFinset.2 (List.mem_of_mem_take hm)
  · intro m hm n hn hnot
    rw [List.mem_toFinset, ← List.take_append_drop ((candidates iter t).length - keep)
      (candidates iter t)] at hn
    cases List.mem_append.1 hn with
    | inl hn => exact absurd hn hnot
    | inr hn => exact Lowest.le_of_mem_take_of_mem_drop stepKey hm hn

theorem completed_saveCheckpoint (call : Call S L) (hkeep : call.keepLastN ≠ 0) (t : Disk S L) :
    ∃ removed, Oldest call.keepLastN (insert (stepName call.save.step) (completed t)) removed ∧
      completed (saveCheckpoint call t) =
        insert (stepName call.save.step) (completed t) \ removed.toFinset := by
  have hall : saveCheckpoint call t = execAll
      [cleanupOldCheckpoints call.iter call.order call.keepLastN]
      (execAll (writePhases call.order call.save) t) := execAll_append _ _ _
  rw [← completed_writePhases call.order, hall]
  generalize execAll (writePhases call.order call.save) t = t'
  refine ⟨_, oldest_candidates call.iter call.keepLastN t', ?_⟩
  rw [execAll, execAll, cleanupOldCheckpoints, if_neg hkeep, completed_removal]

end Slakshna.Checkpoint

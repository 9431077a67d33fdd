import Slakshna.Lib.Run
import Slakshna.Training.Save

/-! Saves that may crash between any two system calls, and when a checkpoint with its sentinel holds
all of the save that put the sentinel there. -/
namespace Slakshna.Checkpoint
open FileTree
variable {S L : Type}

structure Attempt (S L : Type) where
  call : Call S L
  crash : Option ℕ

def Attempt.disk (a : Attempt S L) (t : Disk S L) : Disk S L :=
  match a.crash with
  | none => saveCheckpoint a.call t
  | some k => execCut a.call.phases k t

def Attempt.finishes (a : Attempt S L) (t : Disk S L) : Bool :=
  match a.crash with
  | none => true
  | some k => decide (callCount (writePhases a.call.order a.call.save) t ≤ k)

structure State (S L : Type) where
  disk : Disk S L
  finished : HashMap Name (Save S L)

def step (st : State S L) (a : Attempt S L) : State S L :=
  { disk := a.disk st.disk
    finished := if a.finishes st.disk then
        st.finished.insert (stepName a.call.save.step) a.call.save
      else st.finished }

def State.start : State S L := ⟨∅, ∅⟩

def DataPath (name : Name) (p : List Name) : Prop :=
  p = [name, metaName] ∨ ∃ x, p = [name, modelName, x] ∨ p = [name, optimName, x]

def Intact (finished : HashMap Name (Save S L)) (t : Disk S L) : Prop :=
  ∀ name, (searchStep true name).isSome → [name, completeName] ∈ t →
    ∃ c, finished.lookup name = some c ∧ Holds t name c

/-- What was deleted before the cut does not include a file of data of a completed checkpoint
without including its sentinel. -/
def CutOk (t : Disk S L) (ops : List (Op Name (Content S L))) (k : ℕ) : Prop :=
  ∀ name, (searchStep true name).isSome → [name, completeName] ∈ t →
    (∃ p, DataPath name p ∧ p ∈ t ∧ Op.delete p ∈ ops.take k) →
    Op.delete [name, completeName] ∈ ops.take k

def Attempt.Ok (st : State S L) (a : Attempt S L) : Prop :=
  match a.crash with
  | none => True
  | some k => CutIn CutOk a.call.phases k st.disk

theorem Holds.lookup_isSome {t : Disk S L} {name : Name} {c : Save S L} (h : Holds t name c)
    {t' : Disk S L} (h' : Holds t' name c) {p : List Name} (hp : DataPath name p) :
    t'.lookup p = t.lookup p := by
  cases hp with
  | inl hp => rw [hp, h.metaJson, h'.metaJson]
  | inr hp =>
    obtain ⟨x, hp | hp⟩ := hp
    · rw [hp, h.shards.model, h'.shards.model]
    · rw [hp, h.shards.optim, h'.shards.optim]

theorem Holds.of_lookup {t t' : Disk S L} {name : Name} {c : Save S L} (h : Holds t name c)
    (hsame : ∀ p, DataPath name p → t'.lookup p = t.lookup p) : Holds t' name c where
  shards := h.shards.of_lookup (fun x => hsame _ (.inr ⟨x, .inl rfl⟩))
    (fun x => hsame _ (.inr ⟨x, .inr rfl⟩))
  metaJson := (hsame _ (.inl rfl)).trans h.metaJson

theorem intact_eraseAll_iff {finished : HashMap Name (Save S L)} {t : Disk S L}
    (h : Intact finished t) (ps : List (List Name)) : Intact finished (eraseAll ps t) ↔
      ∀ name, (searchStep true name).isSome → [name, completeName] ∈ t →
        (∃ p, DataPath name p ∧ p ∈ t ∧ p ∈ ps) → [name, completeName] ∈ ps := by
  constructor
  · intro hafter name hname hcomplete hdata
    obtain ⟨p, hp, hpt, hps⟩ := hdata
    by_contra hleft
    have hstill : [name, completeName] ∈ eraseAll ps t := by
      rwa [← AList.lookup_isSome, lookup_eraseAll, if_neg hleft, AList.lookup_isSome]
    obtain ⟨c, hc, hholds⟩ := h name hname hcomplete
    obtain ⟨c', hc', hholds'⟩ := hafter name hname hstill
    have hsame : c' = c := Option.some.inj (hc'.symm.trans hc)
    have hlookup := hholds.lookup_isSome (hsame ▸ hholds') hp
    rw [lookup_eraseAll, if_pos hps] at hlookup
    exact absurd hpt (AList.lookup_eq_none.1 hlookup.symm)
  · intro hkeeps name hname hstill
    rw [← AList.lookup_isSome, lookup_eraseAll] at hstill
    by_cases hdeleted : [name, completeName] ∈ ps
    · rw [if_pos hdeleted] at hstill
      cases hstill
    · rw [if_neg hdeleted, AList.lookup_isSome] at hstill
      obtain ⟨c, hc, hholds⟩ := h name hname hstill
      refine ⟨c, hc, hholds.of_lookup ?_⟩
      intro p hp
      rw [lookup_eraseAll]
      by_cases hps : p ∈ ps
      · have hnot : p ∉ t := fun hpt => hdeleted (hkeeps name hname hstill ⟨p, hp, hpt, hps⟩)
        rw [if_pos hps, AList.lookup_eq_none.2 hnot]
      · rw [if_neg hps]

theorem intact_cut_iff {finished : HashMap Name (Save S L)} {t : Disk S L}
    (h : Intact finished t) (ps : List (List Name)) (k : ℕ) :
    Intact finished (exec t ((ps.map Op.delete).take k)) ↔ CutOk t (ps.map Op.delete) k := by
  have hmem : ∀ p, (Op.delete p : Op Name (Content S L)) ∈ (ps.map Op.delete).take k ↔
      p ∈ ps.take k := by
    intro p
    rw [← List.map_take, List.mem_map]
    constructor
    · intro hp
      obtain ⟨q, hq, heq⟩ := hp
      rwa [← Op.delete.inj heq]
    · exact fun hp => ⟨p, hp, rfl⟩
  rw [← List.map_take, exec_deletes, intact_eraseAll_iff h, CutOk]
  simp only [hmem]

theorem intact_rmtrees {finished : HashMap Name (Save S L)} {t : Disk S L} (h : Intact finished t)
    {ps : List (List Name)} (hps : ∀ p ∈ ps, ∀ name, [name] <+: p → ∀ q ∈ below t [name], q ∈ ps) :
    Intact finished (exec t (ps.map Op.delete)) := by
  rw [exec_deletes, intact_eraseAll_iff h]
  intro name _ hcomplete hdata
  obtain ⟨p, hp, _, hpps⟩ := hdata
  have hbelow : [name] <+: p := by
    cases hp with
    | inl hp => simp [hp]
    | inr hp =>
      obtain ⟨x, hp | hp⟩ := hp
      · simp [hp]
      · simp [hp]
  exact hps p hpps name hbelow _ (mem_below.2 ⟨hcomplete, by simp⟩)

section Phases
variable {finished : HashMap Name (Save S L)} {t : Disk S L} {c : Save S L}

theorem removal_phase (order : DeleteOrder Name) (names : List Name) (h : Intact finished t) :
    Intact finished (exec t (names.flatMap (fun name => rmtree order t [name]))) ∧
      ∀ k < (names.flatMap (fun name => rmtree order t [name])).length,
        Intact finished (exec t ((names.flatMap (fun name => rmtree order t [name])).take k)) ↔
          CutOk t (names.flatMap (fun name => rmtree order t [name])) k := by
  rw [flatMap_rmtree]
  refine ⟨intact_rmtrees h ?_, fun k _ => intact_cut_iff h _ k⟩
  intro p hp name hname q hq
  obtain ⟨m, hm, hpm⟩ := List.mem_flatMap.1 hp
  have hbelow := (mem_below.1 ((order.perm _).mem_iff.1 hpm)).2
  have hsame : m = name := eq_of_below hbelow hname
  exact List.mem_flatMap.2 ⟨m, hm, (order.perm _).mem_iff.2 (hsame ▸ hq)⟩

theorem removal_if (order : DeleteOrder Name) (name : Name) (h : Intact finished t) :
    Intact finished (exec t (if pathExists t [name] then rmtree order t [name] else [])) ∧
      ∀ k < (if pathExists t [name] then rmtree order t [name] else []).length,
        Intact finished
            (exec t ((if pathExists t [name] then rmtree order t [name] else []).take k)) ↔
          CutOk t (if pathExists t [name] then rmtree order t [name] else []) k := by
  by_cases hexists : pathExists t [name] = true
  · rw [if_pos hexists]
    have hphase := removal_phase order [name] h
    rwa [List.flatMap_singleton] at hphase
  · rw [if_neg hexists]
    exact ⟨h, fun k hk => absurd hk (Nat.not_lt_zero k)⟩

theorem Intact.frame {t' : Disk S L} (h : Intact finished t) {P : Name}
    (hsame : ∀ name p, name ≠ P → [name] <+: p → t'.lookup p = t.lookup p)
    (hP : (searchStep true P).isSome → [P, completeName] ∉ t') : Intact finished t' := by
  intro name hname hcomplete
  have hne : name ≠ P := by
    intro heq
    exact hP (heq ▸ hname) (heq ▸ hcomplete)
  have hlookup := hsame name [name, completeName] hne (by simp)
  obtain ⟨d, hd, hholds⟩ := h name hname ((mem_iff_of_lookup hlookup).1 hcomplete)
  exact ⟨d, hd, hholds.frame (fun p hp => hsame name p hne hp)⟩

theorem cutOk_of_no_delete {ops : List (Op Name (Content S L))} (h : ∀ p, Op.delete p ∉ ops)
    (k : ℕ) : CutOk t ops k := by
  intro name _ _ hdata
  obtain ⟨p, _, _, hp⟩ := hdata
  exact absurd (List.mem_of_mem_take hp) (h p)

theorem Intact.exec (h : Intact finished t) {P : Name} {ops : List (Op Name (Content S L))}
    (hops : ∀ op ∈ ops, op.Touches (fun q => q = [] ∨ [P] <+: q))
    (hP : (searchStep true P).isSome → [P, completeName] ∉ exec t ops) :
    Intact finished (exec t ops) := by
  refine h.frame ?_ hP
  intro name p hne hp
  apply lookup_exec hops
  intro htouched
  cases htouched with
  | inl hnil =>
    rw [hnil] at hp
    exact List.cons_ne_nil _ _ (List.prefix_nil.1 hp)
  | inr hinP => exact hne (eq_of_below hp hinP)

theorem writeTmp_phase (h : Intact finished t) (hempty : ∀ p, [tmpName c.step] <+: p → p ∉ t) :
    (Intact finished (exec t (writeTmp c t)) ∧ Fresh (exec t (writeTmp c t)) (tmpName c.step) c) ∧
      ∀ k < (writeTmp c t).length,
        Intact finished (exec t ((writeTmp c t).take k)) ↔ CutOk t (writeTmp c t) k := by
  have hnot : ¬(searchStep true (tmpName c.step)).isSome := by
    rw [searchStep_tmpName]
    decide
  refine ⟨⟨h.exec touches_writeTmp (fun hs => absurd hs hnot), writeTmp_fresh hempty⟩, ?_⟩
  intro k _
  apply iff_of_true
  · exact h.exec (fun op hop => touches_writeTmp op (List.mem_of_mem_take hop))
      (fun hs => absurd hs hnot)
  · apply cutOk_of_no_delete
    intro p hp
    simp [writeTmp, dcpSave] at hp

theorem clearTmp_phase (order : DeleteOrder Name) (h : Intact finished t) :
    (Intact finished (exec t (clearTmp order c t)) ∧
      ∀ p, [tmpName c.step] <+: p → p ∉ exec t (clearTmp order c t)) ∧
      ∀ k < (clearTmp order c t).length,
        Intact finished (exec t ((clearTmp order c t).take k)) ↔
          CutOk t (clearTmp order c t) k := by
  obtain ⟨hintact, hcut⟩ := removal_if order (tmpName c.step) h
  exact ⟨⟨hintact, fun p hp => not_mem_removal order hp⟩, hcut⟩

theorem clearPath_phase (order : DeleteOrder Name) (h : Intact finished t)
    (hfresh : Fresh t (tmpName c.step) c) :
    (Intact finished (exec t (clearPath order c t)) ∧
      Fresh (exec t (clearPath order c t)) (tmpName c.step) c ∧
      ∀ p, [stepName c.step] <+: p → p ∉ exec t (clearPath order c t)) ∧
      ∀ k < (clearPath order c t).length,
        Intact finished (exec t ((clearPath order c t).take k)) ↔
          CutOk t (clearPath order c t) k := by
  obtain ⟨hintact, hcut⟩ := removal_if order (stepName c.step) h
  exact ⟨⟨hintact, clearPath_fresh order hfresh, fun p hp => not_mem_removal order hp⟩, hcut⟩

theorem renameTmp_phase (h : Intact finished t) (hfresh : Fresh t (tmpName c.step) c)
    (hempty : ∀ p, [stepName c.step] <+: p → p ∉ t) :
    (Intact finished (exec t (renameTmp c t)) ∧ Fresh (exec t (renameTmp c t)) (stepName c.step) c) ∧
      ∀ k < (renameTmp c t).length,
        Intact finished (exec t ((renameTmp c t).take k)) ↔ CutOk t (renameTmp c t) k := by
  have hrenamed := rename_fresh hfresh hempty
  refine ⟨⟨?_, hrenamed⟩, ?_⟩
  · intro name hname hcomplete
    have hstep : name ≠ stepName c.step := by
      intro heq
      exact hrenamed.unsealed (heq ▸ hcomplete)
    have htmp : name ≠ tmpName c.step := by
      intro heq
      rw [heq, searchStep_tmpName] at hname
      cases hname
    have hsame : ∀ p, [name] <+: p → (exec t (renameTmp c t)).lookup p = t.lookup p := by
      intro p hp
      change (renamed [tmpName c.step] [stepName c.step] t).lookup p = _
      rw [lookup_renamed, if_neg (fun hmoved => hstep (eq_of_below hp hmoved.1)),
        if_neg (fun hmoved => htmp (eq_of_below hp hmoved))]
    obtain ⟨d, hd, hholds⟩ := h name hname ((mem_iff_of_lookup (hsame _ (by simp))).1 hcomplete)
    exact ⟨d, hd, hholds.frame hsame⟩
  · intro k hk
    have hzero : k = 0 := Nat.lt_one_iff.1 hk
    rw [hzero, List.take_zero]
    apply iff_of_true h
    intro name _ _ hdata
    obtain ⟨p, _, _, hp⟩ := hdata
    cases hp

theorem finish_phase (h : Intact finished t) (hfresh : Fresh t (stepName c.step) c) :
    Intact (finished.insert (stepName c.step) c) (exec t (finish c t)) ∧
      ∀ k < (finish c t).length,
        Intact finished (exec t ((finish c t).take k)) ↔ CutOk t (finish c t) k := by
  refine ⟨?_, ?_⟩
  · intro name hname hcomplete
    by_cases hstep : name = stepName c.step
    · subst hstep
      exact ⟨c, AList.lookup_insert _, finish_holds hfresh⟩
    · have hsame : ∀ p, [name] <+: p → (exec t (finish c t)).lookup p = t.lookup p := by
        intro p hp
        apply lookup_exec touches_finish
        obtain ⟨tail, rfl⟩ := hp
        simp [hstep]
      obtain ⟨d, hd, hholds⟩ := h name hname ((mem_iff_of_lookup (hsame _ (by simp))).1 hcomplete)
      exact ⟨d, (AList.lookup_insert_ne hstep).trans hd, hholds.frame hsame⟩
  · intro k hk
    -- before the last call only the metadata is written
    have htouches : ∀ op ∈ (finish c t).take k,
        op.Touches (fun q => q = [stepName c.step, metaName]) := by
      intro op hop
      have htake : (finish c t).take k <+: (finish c t).take 2 :=
        List.take_prefix_take_left (Nat.le_of_lt_succ hk)
      have hmem := htake.subset hop
      simp only [finish, List.take_succ_cons, List.take_zero, List.mem_cons, List.not_mem_nil,
        or_false] at hmem
      obtain rfl | rfl := hmem
      · rfl
      · rfl
    apply iff_of_true
    · apply h.exec (P := stepName c.step)
      · exact fun op hop => (htouches op hop).mono (fun q hq => .inr (by simp [hq]))
      · intro _ hmem
        have hlookup := lookup_exec htouches t (q := [stepName c.step, completeName])
          (by simp [metaName, completeName])
        exact hfresh.unsealed ((mem_iff_of_lookup hlookup).1 hmem)
    · apply cutOk_of_no_delete
      intro p hp
      simp [finish] at hp

theorem writePhases_spec (order : DeleteOrder Name) (finished : HashMap Name (Save S L))
    (c : Save S L) : CrashSpec CutOk (Intact finished) (Intact finished)
      (Intact (finished.insert (stepName c.step) c)) (writePhases order c) := by
  refine .cons (R := fun t => Intact finished t ∧ ∀ p, [tmpName c.step] <+: p → p ∉ t)
    (fun t ht => clearTmp_phase order ht) ?_
  refine .cons (R := fun t => Intact finished t ∧ Fresh t (tmpName c.step) c)
    (fun t ht => writeTmp_phase ht.1 ht.2) ?_
  refine .cons (R := fun t => Intact finished t ∧ Fresh t (tmpName c.step) c ∧
      ∀ p, [stepName c.step] <+: p → p ∉ t)
    (fun t ht => clearPath_phase order ht.1 ht.2) ?_
  refine .cons (R := fun t => Intact finished t ∧ Fresh t (stepName c.step) c)
    (fun t ht => renameTmp_phase ht.1 ht.2.1 ht.2.2) ?_
  exact .cons (R := Intact (finished.insert (stepName c.step) c))
    (fun t ht => finish_phase ht.1 ht.2) (.nil (fun t ht => ht))

theorem cleanup_spec (iter : IterOrder Name) (order : DeleteOrder Name) (keepLastN : ℕ)
    (finished : HashMap Name (Save S L)) :
    CrashSpec CutOk (Intact finished) (Intact finished) (Intact finished)
      [cleanupOldCheckpoints iter order keepLastN] := by
  refine .cons (fun t ht => ?_) (.nil (fun t ht => ht))
  rw [cleanupOldCheckpoints]
  split
  · exact ⟨ht, fun k hk => absurd hk (Nat.not_lt_zero k)⟩
  · exact removal_phase order _ ht

end Phases

theorem step_intact_iff (st : State S L) (a : Attempt S L) (h : Intact st.finished st.disk) :
    Intact (step st a).finished (step st a).disk ↔ a.Ok st := by
  obtain ⟨hwritten, hcut⟩ := writePhases_spec a.call.order st.finished a.call.save st.disk h
  obtain ⟨hkept, hcutKept⟩ := cleanup_spec a.call.iter a.call.order a.call.keepLastN
    (st.finished.insert (stepName a.call.save.step) a.call.save) _ hwritten
  have hall : saveCheckpoint a.call st.disk = execAll
      [cleanupOldCheckpoints a.call.iter a.call.order a.call.keepLastN]
      (execAll (writePhases a.call.order a.call.save) st.disk) := execAll_append _ _ _
  cases hcrash : a.crash with
  | none =>
    simp only [step, Attempt.disk, Attempt.finishes, Attempt.Ok, hcrash, if_true, iff_true]
    rw [hall]
    exact hkept
  | some k =>
    simp only [step, Attempt.disk, Attempt.finishes, Attempt.Ok, hcrash, Call.phases,
      decide_eq_true_eq]
    by_cases hfinished : callCount (writePhases a.call.order a.call.save) st.disk ≤ k
    · rw [if_pos hfinished, execCut_of_le hfinished, cutIn_of_le hfinished]
      by_cases hlast : k - callCount (writePhases a.call.order a.call.save) st.disk <
          callCount [cleanupOldCheckpoints a.call.iter a.call.order a.call.keepLastN]
            (execAll (writePhases a.call.order a.call.save) st.disk)
      · exact hcutKept _ hlast
      · have hend := Nat.le_of_not_lt hlast
        rw [execCut_of_ge hend]
        exact iff_of_true hkept (cutIn_of_ge hend)
    · rw [if_neg hfinished, execCut_of_lt (Nat.lt_of_not_le hfinished),
        cutIn_of_lt (Nat.lt_of_not_le hfinished)]
      exact hcut k (Nat.lt_of_not_le hfinished)

/-- In every state of a run each sentinel stands over the whole of a finished save exactly if no
crash comes between the deletion of its data and its own. -/
theorem intact_throughout_iff (es : List (Attempt S L)) :
    (∀ n, Intact (Run.exec step State.start (es.take n)).finished
      (Run.exec step State.start (es.take n)).disk) ↔ Run.Along step Attempt.Ok State.start es := by
  have hstart : Intact (State.start (S := S) (L := L)).finished State.start.disk := by
    intro name _ hcomplete
    cases hcomplete
  have hstep : ∀ (st : State S L) a, Intact st.finished st.disk →
      (Intact (step st a).finished (step st a).disk ↔ a.Ok st) := step_intact_iff
  exact Run.always_iff hstep hstart es

def tornRun : List (Attempt ℕ ℕ) :=
  let call (data : ℕ) : Call ℕ ℕ :=
    ⟨⟨5, AList.singleton ['0'] data, ∅, 0⟩, 3, .asStored, .deepestFirst⟩
  [⟨call 1, none⟩, ⟨call 2, some 7⟩]

theorem torn_checkpoint :
    [stepName 5, completeName] ∈ (Run.exec step State.start tornRun).disk ∧
      ∀ a ∈ tornRun, ¬Holds (Run.exec step State.start tornRun).disk (stepName 5) a.call.save := by
  refine ⟨by decide, ?_⟩
  have hgone : (Run.exec step State.start tornRun).disk.lookup [stepName 5, modelName, ['0']] =
      none := by decide
  intro a ha hholds
  have hshard := hholds.shards.model ['0']
  rw [hgone] at hshard
  simp only [tornRun, List.mem_cons, List.not_mem_nil, or_false] at ha
  cases ha with
  | inl ha =>
    rw [ha] at hshard
    cases hshard
  | inr ha =>
    rw [ha] at hshard
    cases hshard

end Slakshna.Checkpoint

import Mathlib.Data.Set.Function
import Slakshna.Data.TokenCache
import Slakshna.Lib.Run

/-! Runs of calls that share a cache, completed or interrupted, and what a hit returns. -/
namespace Slakshna.TokenCache
variable {Rec O : Type}

structure Config (O : Type) where
  modelName : Text
  name : Text
  trainPath : Option Text
  valPath : Option Text
  path : Option Text
  seqLen : ℕ
  format : Option Text
  formatOptions : Option O
  cacheDir : Text
  overwriteCache : Bool

def localName : Text := ['l', 'o', 'c', 'a', 'l']

def valSplit : Text := ['v', 'a', 'l']

def pathForSplit (cfg : Config O) (split : Option Text) : Except Text Text :=
  if split = some valSplit then
    match truthy cfg.valPath with
    | some path => .ok path
    | none => .error
        "split='val' requested but data.val_path is not set in config.".toList
  else
    match truthy cfg.trainPath with
    | some path => .ok path
    | none =>
      match truthy cfg.path with
      | some path => .ok path
      | none => .error
          ("data.train_path (or data.path) must be set for the local dataset. ".toList ++
            "Point it at a JSONL file, a directory, or a glob.".toList)

/-- The raw rows and their text column: `read` reads local files, `hub` has the other registered
datasets. -/
def callRawBuilder (read : Text → Except Text (List Rec)) (hub : Text → Option (List Rec × Text))
    (cfg : Config O) (split : Option Text) : Except Text (List Rec × Text) :=
  if cfg.name = localName then do
    let path ← pathForSplit cfg split
    let raw ← read path
    return (raw, ['t', 'e', 'x', 't'])
  else
    match hub cfg.name with
    | some dataset => .ok dataset
    | none => .error ("No text_col registered for dataset '".toList ++ cfg.name ++
        "'. Use @register_raw('name', text_col='column_name').".toList)

def tokenizeOneSplit (read : Text → Except Text (List Rec))
    (hub : Text → Option (List Rec × Text)) (cfg : Config O) (split : Option Text) :
    Except Text (Request Rec O) := do
  let dataset ← callRawBuilder read hub cfg split
  let persistName := match truthy split with
    | some split => cfg.name ++ '_' :: split
    | none => cfg.name
  return ⟨dataset.1, dataset.2, persistName, cfg.modelName, cfg.seqLen, cfg.format,
    cfg.formatOptions, cfg.cacheDir, cfg.overwriteCache⟩

inductive Event (Rec O : Type) where
  | call (r : Request Rec O)
  | cut (r : Request Rec O) (at_ : Cut)

def Event.request : Event Rec O → Request Rec O
  | .call r => r
  | .cut r _ => r

structure State (Rec O : Type) where
  cache : Cache
  writer : HashMap Path (Request Rec O)

def State.start : State Rec O := ⟨∅, ∅⟩

def step (lib : Libraries Rec O) (st : State Rec O) : Event Rec O → State Rec O
  | .call r =>
    match persistTokenized lib st.cache r with
    | .error _ => st
    | .ok (path, cache) =>
      ⟨cache, if hit lib st.cache r then st.writer else st.writer.insert path r⟩
  | .cut r at_ => ⟨interrupted lib st.cache r at_, st.writer⟩

def metadataAt (cache : Cache) (path : Path) : Option Metadata :=
  ((cache.lookup path).bind Dir.metadata).join

def ReturnsRight (lib : Libraries Rec O) (cache : Cache) (r : Request Rec O) : Prop :=
  hit lib cache r = true → ∀ path cache', persistTokenized lib cache r = .ok (path, cache') →
    (rowsAt cache' path).Perm (applyMapBatches lib r)

/-- A hit is on a directory whose writer agrees in what the cache forgets; what is written is not
added to rows of another call; an interruption leaves no metadata that can be read beside other
rows than before. -/
def Careful (lib : Libraries Rec O) (st : State Rec O) : Event Rec O → Prop
  | .call r =>
    if hit lib st.cache r then
      ∀ w, st.writer.lookup (cachePath lib r) = some w → Forgotten lib w r
    else r.overwriteCache = true ∨ rowsAt st.cache (cachePath lib r) = []
  | .cut r at_ =>
    metadataAt (interrupted lib st.cache r at_) (cachePath lib r) = none ∨
      (rowsAt (interrupted lib st.cache r at_) (cachePath lib r)).Perm
        (rowsAt st.cache (cachePath lib r))

def Described (lib : Libraries Rec O) (requests : List (Request Rec O)) (st : State Rec O) : Prop :=
  ∀ path m, metadataAt st.cache path = some m → ∃ w ∈ requests,
    st.writer.lookup path = some w ∧ cachePath lib w = path ∧ w.metadata = m ∧
      (rowsAt st.cache path).Perm (applyMapBatches lib w)

section Step
variable {lib : Libraries Rec O} {requests : List (Request Rec O)} {st : State Rec O}

theorem rowsAt_insert (cache : Cache) (path : Path) (dir : Dir) :
    rowsAt (cache.insert path dir) path = dir.files.flatten := by
  rw [rowsAt, AList.lookup_insert]
  rfl

theorem metadataAt_insert (cache : Cache) (path : Path) (dir : Dir) :
    metadataAt (cache.insert path dir) path = dir.metadata.join := by
  rw [metadataAt, AList.lookup_insert]
  rfl

theorem flatten_writtenDir_iff (lib : Libraries Rec O) (cache : Cache) (r : Request Rec O) :
    (writtenDir lib cache r).files.flatten = [] ↔
      r.overwriteCache = true ∨ rowsAt cache (cachePath lib r) = [] := by
  rw [writtenDir]
  split
  · next hover => simp [hover]
  · next hover =>
    rw [or_iff_right hover, rowsAt]
    cases cache.lookup (cachePath lib r) with
    | none => rfl
    | some dir => rfl

theorem lookup_interrupted (lib : Libraries Rec O) (cache : Cache) (r : Request Rec O) (at_ : Cut)
    {path : Path} (h : path ≠ cachePath lib r) :
    (interrupted lib cache r at_).lookup path = cache.lookup path := by
  unfold interrupted
  split
  · rfl
  · cases at_ with
    | removing keep metadataLeft =>
      dsimp only
      split
      · split
        · exact AList.lookup_insert_ne h
        · rfl
      · rfl
    | writing keep => exact AList.lookup_insert_ne h
    | describing => exact AList.lookup_insert_ne h

theorem metadataAt_interrupted {r : Request Rec O} {at_ : Cut} {m : Metadata}
    (h : metadataAt (interrupted lib st.cache r at_) (cachePath lib r) = some m) :
    metadataAt st.cache (cachePath lib r) = some m := by
  unfold interrupted at h
  split at h
  · exact h
  · cases at_ with
    | removing keep metadataLeft =>
      dsimp only at h
      split at h
      · next dir hdir =>
        split at h
        · rw [metadataAt_insert] at h
          cases metadataLeft with
          | true =>
            rw [metadataAt, hdir]
            exact h
          | false => cases h
        · exact h
      · exact h
    | writing keep =>
      rw [metadataAt_insert, writtenDir] at h
      split at h
      · cases h
      · cases hdir : st.cache.lookup (cachePath lib r) with
        | none =>
          rw [hdir] at h
          cases h
        | some dir =>
          rw [hdir] at h
          rw [metadataAt, hdir]
          exact h
    | describing =>
      rw [metadataAt_insert] at h
      cases h

theorem described_cut {r : Request Rec O} {at_ : Cut} (h : Described lib requests st)
    (hcareful : Careful lib st (.cut r at_)) :
    Described lib requests (step lib st (.cut r at_)) := by
  intro path m hm
  by_cases hpath : path = cachePath lib r
  · subst hpath
    have hrows := hcareful.resolve_left (by
      intro hnone
      rw [step] at hm
      exact absurd (hm.symm.trans hnone) (by simp))
    obtain ⟨w, hw, hwriter, hcache, hmeta, hperm⟩ := h _ m (metadataAt_interrupted hm)
    exact ⟨w, hw, hwriter, hcache, hmeta, hrows.trans hperm⟩
  · have hlookup := lookup_interrupted lib st.cache r at_ hpath
    have hbefore : metadataAt st.cache path = some m := by
      rw [metadataAt, ← hlookup]
      exact hm
    obtain ⟨w, hw, hwriter, hcache, hmeta, hperm⟩ := h path m hbefore
    refine ⟨w, hw, hwriter, hcache, hmeta, ?_⟩
    rwa [step, rowsAt, hlookup]

theorem described_call {r : Request Rec O} (h : Described lib requests st) (hr : r ∈ requests)
    (hcareful : Careful lib st (.call r)) : Described lib requests (step lib st (.call r)) := by
  rw [step, persistTokenized]
  by_cases hdir : r.cacheDir = []
  · rwa [if_pos hdir]
  · rw [if_neg hdir]
    by_cases hhit : hit lib st.cache r = true
    · simpa [hhit] using h
    · rw [Careful, if_neg hhit] at hcareful
      simp only [hhit, Bool.false_eq_true, if_false]
      intro path m hm
      by_cases hpath : path = cachePath lib r
      · subst hpath
        rw [metadataAt_insert] at hm
        refine ⟨r, hr, AList.lookup_insert _, rfl, Option.some.inj hm, ?_⟩
        rw [rowsAt_insert, List.flatten_append, (flatten_writtenDir_iff _ _ _).2 hcareful,
          List.nil_append]
        exact lib.files_perm _
      · rw [metadataAt, AList.lookup_insert_ne hpath] at hm
        obtain ⟨w, hw, hwriter, hcache, hmeta, hperm⟩ := h path m hm
        refine ⟨w, hw, ?_, hcache, hmeta, ?_⟩
        · rwa [AList.lookup_insert_ne hpath]
        · rwa [rowsAt, AList.lookup_insert_ne hpath]

theorem described_step {e : Event Rec O} (h : Described lib requests st)
    (he : e.request ∈ requests) (hcareful : Careful lib st e) :
    Described lib requests (step lib st e) := by
  cases e with
  | call r => exact described_call h he hcareful
  | cut r at_ => exact described_cut h hcareful

theorem returnsRight_of_described {r : Request Rec O} (h : Described lib requests st)
    (hdigest : ∀ w ∈ requests, cacheVersionHash lib w = cacheVersionHash lib r →
      cacheKey lib w = cacheKey lib r)
    (hcareful : Careful lib st (.call r)) : ReturnsRight lib st.cache r := by
  intro hhit path cache' hreturn
  rw [persistTokenized] at hreturn
  split at hreturn
  · cases hreturn
  · obtain ⟨rfl, rfl⟩ := Prod.mk.inj (Except.ok.inj hreturn)
    rw [Careful, if_pos hhit] at hcareful
    rw [hit, Bool.and_eq_true] at hhit
    obtain ⟨dir, m, hdir, hm, hmodel, hseq, hdataset, hformat, _⟩ := verifyCache_iff.1 hhit.1
    have hmeta : metadataAt st.cache (cachePath lib r) = some m := by
      rw [metadataAt, hdir, Option.bind_some, hm]
      rfl
    obtain ⟨w, hw, hwriter, hpath, rfl, hperm⟩ := h _ m hmeta
    have hmatches : Matches lib w r :=
      ⟨hmodel, hseq, hdataset, hformat, hdigest w hw (cacheVersionHash_eq hpath)⟩
    rwa [← applyMapBatches_eq hmatches (hcareful w hwriter)]

end Step

/-- In a run of careful steps every hit returns the rows that are asked for. -/
theorem hits_right (lib : Libraries Rec O) (es : List (Event Rec O))
    (hdigest : Set.InjOn lib.digest {key | ∃ e ∈ es, cacheKey lib e.request = key})
    (hcareful : ∀ l e, l ++ [e] <+: es → Careful lib (Run.exec (step lib) State.start l) e) :
    ∀ l r, l ++ [.call r] <+: es →
      ReturnsRight lib (Run.exec (step lib) State.start l).cache r := by
  have hdescribed : ∀ l, l <+: es →
      Described lib (es.map Event.request) (Run.exec (step lib) State.start l) := by
    intro l hl
    induction l using List.reverseRecOn with
    | nil =>
      intro path m hm
      cases hm
    | append_singleton l e ih =>
      have he : e ∈ es := hl.subset (by simp)
      rw [Run.exec_append]
      exact described_step (ih ((List.prefix_append l [e]).trans hl)) (List.mem_map_of_mem he)
        (hcareful l e hl)
  intro l r hl
  have hr : .call r ∈ es := hl.subset (by simp)
  refine returnsRight_of_described (hdescribed l ((List.prefix_append l _).trans hl)) ?_
    (hcareful l _ hl)
  intro w hw heq
  obtain ⟨e, he, rfl⟩ := List.mem_map.1 hw
  exact hdigest ⟨e, he, rfl⟩ ⟨_, hr, rfl⟩ heq

def letters : Libraries Text Text where
  column := fun _ row => row
  render := fun _ _ _ row => row
  encode := fun _ seqLen text =>
    ((text.take seqLen).map (fun c => (c.toNat : ℤ)) ++ List.replicate (seqLen - text.length) 0,
      (text.take seqLen).map (fun _ => 1) ++ List.replicate (seqLen - text.length) 0)
  batches := fun rows => [rows]
  files := fun rows => rows.map (fun row => [row])
  files_perm := by
    intro rows
    rw [← List.flatMap_def, List.flatMap_singleton']
  dumps := id
  digest := fun s =>
    if s = ['m', '|', '4', '|', 'l', 'o', 'c', 'a', 'l', '_', 't', 'r', 'a', 'i', 'n'] then
      ['0', '8', 'd', 'd', 'c', '0', '7', '1', '2', '9', '5', '2', 'f', '7', '8', 'd']
    else List.replicate 16 '0'
  digest_length := by
    intro s
    split
    · rfl
    · rfl
  digest_hex := by
    intro s
    split
    · simp [Char.isDigit]
    · intro c hc
      rw [List.eq_of_mem_replicate hc]
      exact .inl rfl

def localConfig (trainPath : Text) : Config Text :=
  ⟨['m'], localName, some trainPath, none, none, 4, none, none, ['/', 'c'], false⟩

def trainRequest (trainPath : Text) : Request Text Text :=
  ⟨[trainPath], ['t', 'e', 'x', 't'], ['l', 'o', 'c', 'a', 'l', '_', 't', 'r', 'a', 'i', 'n'], ['m'],
    4, none, none, ['/', 'c'], false⟩

theorem hits_right_sample : ReturnsRight letters
    (Run.exec (step letters) State.start [.call (trainRequest ['a'])]).cache
    (trainRequest ['a']) := by
  refine hits_right letters [.call (trainRequest ['a']), .call (trainRequest ['a'])] ?_ ?_
    [.call (trainRequest ['a'])] _ List.prefix_rfl
  · intro k hk k' hk' _
    obtain ⟨e, he, rfl⟩ := hk
    obtain ⟨e', he', rfl⟩ := hk'
    simp only [List.mem_cons, List.not_mem_nil, or_false, or_self] at he he'
    rw [he, he']
  · intro l e hl
    cases l with
    | nil =>
      rw [(List.cons_prefix_cons.1 hl).1]
      exact .inr rfl
    | cons x l =>
      obtain ⟨rfl, hrest⟩ := List.cons_prefix_cons.1 hl
      cases l with
      | nil =>
        have he : e = .call (trainRequest ['a']) := (List.cons_prefix_cons.1 hrest).1
        subst he
        have hwriter : (Run.exec (step letters) State.start
            [.call (trainRequest ['a'])]).writer.lookup (cachePath letters (trainRequest ['a'])) =
              some (trainRequest ['a']) := by decide +kernel
        rw [Careful, if_pos (by decide +kernel), hwriter]
        intro w hw
        rw [← Option.some.inj hw]
        exact ⟨rfl, fun _ => rfl, fun _ _ => rfl⟩
      | cons y l =>
        have hend := (List.cons_prefix_cons.1 hrest).2
        simp at hend

/-- The cache of one training file is returned for another. -/
theorem stale_hit :
    let cache := (step letters State.start (.call (trainRequest ['a']))).cache
    (∀ p ∈ [['a'], ['b']], tokenizeOneSplit (fun path => .ok [path]) (fun _ => none) (localConfig p)
      (some ['t', 'r', 'a', 'i', 'n']) = .ok (trainRequest p)) ∧
      hit letters cache (trainRequest ['b']) = true ∧
      ¬ReturnsRight letters cache (trainRequest ['b']) := by
  have hhit : hit letters (step letters State.start (.call (trainRequest ['a']))).cache
      (trainRequest ['b']) = true := by decide +kernel
  have hrows : ¬(rowsAt (step letters State.start (.call (trainRequest ['a']))).cache
      (cachePath letters (trainRequest ['b']))).Perm
        (applyMapBatches letters (trainRequest ['b'])) := by decide +kernel
  refine ⟨?_, hhit, ?_⟩
  · intro p hp
    simp only [List.mem_cons, List.not_mem_nil, or_false] at hp
    cases hp with
    | inl hp =>
      rw [hp]
      rfl
    | inr hp =>
      rw [hp]
      rfl
  · intro hright
    apply hrows
    apply hright hhit
    rw [persistTokenized, if_neg (by decide), if_pos hhit]

/-! A call after one of the same request that was interrupted -/

theorem hit_eq_false {lib : Libraries Rec O} {cache : Cache} {r : Request Rec O}
    (h : r.overwriteCache = true ∨ metadataAt cache (cachePath lib r) = none) :
    hit lib cache r = false := by
  cases h with
  | inl hover => simp [hit, hover]
  | inr hnone =>
    rw [hit, Bool.and_eq_false_iff, ← Bool.not_eq_true, verifyCache_iff]
    left
    intro h
    obtain ⟨dir, m, hdir, hm, _⟩ := h
    rw [metadataAt, hdir, Option.bind_some, hm] at hnone
    cases hnone

theorem interrupted_writing {lib : Libraries Rec O} {cache : Cache} {r : Request Rec O}
    (hdir : r.cacheDir ≠ [])
    (hunwritten : r.overwriteCache = true ∨ metadataAt cache (cachePath lib r) = none)
    (keep : ℕ → Bool) : ∃ metadata, metadata.join = none ∧
      interrupted lib cache r (.writing keep) = cache.insert (cachePath lib r)
        ⟨(writtenDir lib cache r).files ++ pick keep (lib.files (applyMapBatches lib r)),
          metadata⟩ := by
  refine ⟨(writtenDir lib cache r).metadata, ?_, ?_⟩
  · rw [writtenDir]
    split
    · rfl
    · next hover =>
      have hnone := hunwritten.resolve_left hover
      rw [metadataAt] at hnone
      cases hlookup : cache.lookup (cachePath lib r) with
      | none => rfl
      | some dir =>
        rw [hlookup] at hnone
        exact hnone
  · unfold interrupted
    rw [if_neg (by simp [hdir, hit_eq_false hunwritten])]

/-- After an interruption before the metadata the next call leaves every row once exactly if there
were no rows in the directory, neither from before nor from the interrupted call. -/
theorem rerun_iff (lib : Libraries Rec O) (cache : Cache) (r : Request Rec O) (overwrite : Bool)
    (keep : ℕ → Bool) (hdir : r.cacheDir ≠ [])
    (hunwritten : overwrite = true ∨ metadataAt cache (cachePath lib r) = none) :
    (∃ path cache', persistTokenized lib
        (interrupted lib cache { r with overwriteCache := overwrite } (.writing keep))
        { r with overwriteCache := false } = .ok (path, cache') ∧
      (rowsAt cache' path).Perm (applyMapBatches lib r)) ↔
      (overwrite = true ∨ rowsAt cache (cachePath lib r) = []) ∧
        ∀ file ∈ pick keep (lib.files (applyMapBatches lib r)), file = [] := by
  have hold : (writtenDir lib cache { r with overwriteCache := overwrite }).files.flatten = [] ↔
      overwrite = true ∨ rowsAt cache (cachePath lib r) = [] := flatten_writtenDir_iff lib cache _
  obtain ⟨metadata, hmetadata, hcut⟩ : ∃ metadata, metadata.join = none ∧
      interrupted lib cache { r with overwriteCache := overwrite } (.writing keep) =
        cache.insert (cachePath lib r)
          ⟨(writtenDir lib cache { r with overwriteCache := overwrite }).files ++
            pick keep (lib.files (applyMapBatches lib r)), metadata⟩ :=
    interrupted_writing (r := { r with overwriteCache := overwrite }) hdir hunwritten keep
  rw [hcut]
  generalize (writtenDir lib cache { r with overwriteCache := overwrite }).files = old at hold
  generalize hwritten : pick keep (lib.files (applyMapBatches lib r)) = written
  have hmiss : hit lib (cache.insert (cachePath lib r) ⟨old ++ written, metadata⟩)
      { r with overwriteCache := false } = false :=
    hit_eq_false (.inr ((metadataAt_insert cache (cachePath lib r) _).trans hmetadata))
  have hlookup : (cache.insert (cachePath lib r) ⟨old ++ written, metadata⟩).lookup
      (cachePath lib { r with overwriteCache := false }) = some ⟨old ++ written, metadata⟩ :=
    AList.lookup_insert cache
  have hreturn : persistTokenized lib
      (cache.insert (cachePath lib r) ⟨old ++ written, metadata⟩)
      { r with overwriteCache := false } = .ok (cachePath lib r,
        (cache.insert (cachePath lib r) ⟨old ++ written, metadata⟩).insert (cachePath lib r)
          ⟨(old ++ written) ++ lib.files (applyMapBatches lib r), some (some r.metadata)⟩) := by
    rw [persistTokenized, if_neg hdir, hmiss, writtenDir, hlookup]
    rfl
  have hperm : ((old ++ written) ++ lib.files (applyMapBatches lib r)).flatten.Perm
      (applyMapBatches lib r) ↔ old.flatten = [] ∧ written.flatten = [] := by
    rw [List.flatten_append, List.flatten_append, ← List.append_eq_nil_iff]
    constructor
    · intro h
      have hlength := h.length_eq
      rw [List.length_append, (lib.files_perm _).length_eq] at hlength
      exact List.length_eq_zero_iff.1 (by omega)
    · intro h
      rw [h]
      exact lib.files_perm _
  rw [hreturn, ← hold, ← List.flatten_eq_nil_iff, ← hperm]
  constructor
  · intro h
    obtain ⟨path, cache', heq, hrows⟩ := h
    obtain ⟨rfl, rfl⟩ := Prod.mk.inj (Except.ok.inj heq)
    rwa [rowsAt_insert] at hrows
  · exact fun h => ⟨_, _, rfl, by rwa [rowsAt_insert]⟩

theorem rerun_sample : ∃ path cache', persistTokenized letters
    (interrupted letters ∅ (trainRequest ['a']) (.writing (fun _ => false)))
    (trainRequest ['a']) = .ok (path, cache') ∧
      (rowsAt cache' path).Perm (applyMapBatches letters (trainRequest ['a'])) :=
  (rerun_iff letters ∅ (trainRequest ['a']) false (fun _ => false) (by decide)
    (.inr rfl)).2 (by decide +kernel)

/-- A call that is interrupted after its one file, and the next one: the row is there twice. -/
theorem rerun_duplicates :
    let r := trainRequest ['a']
    let cache := interrupted letters ∅ r (.writing (fun _ => true))
    let rows := rowsAt (step letters ⟨cache, ∅⟩ (.call r)).cache (cachePath letters r)
    rows = applyMapBatches letters r ++ applyMapBatches letters r ∧
      ¬rows.Perm (applyMapBatches letters r) := by
  decide +kernel

end Slakshna.TokenCache

import Mathlib.Algebra.Ring.Int.Defs
import Slakshna.Lib.HashMap
import Slakshna.Lib.Path

/-! The cache of tokenised datasets: one directory of parquet files with a `metadata.json` for each
cache key. One process tokenises. -/
namespace Slakshna.TokenCache

abbrev Text := List Char

structure TokenRow where
  inputIds : List ℤ
  attentionMask : List ℤ
  labels : List ℤ
  deriving DecidableEq

structure Libraries (Rec O : Type) where
  column : Text → Rec → Text
  render : Text → Option O → Text → Rec → Text
  encode : Text → ℕ → Text → List ℤ × List ℤ
  batches : List Rec → List (List Rec)
  /-- The files that one `write_parquet` adds. -/
  files : List TokenRow → List (List TokenRow)
  files_perm : ∀ rows, (files rows).flatten.Perm rows
  dumps : O → Text
  /-- The first 16 digits of the SHA-256 in hexadecimal. -/
  digest : Text → Text
  digest_length : ∀ s, (digest s).length = 16
  digest_hex : ∀ s, ∀ c ∈ digest s, c.isDigit ∨ c ∈ ['a', 'b', 'c', 'd', 'e', 'f']

structure Request (Rec O : Type) where
  raw : List Rec
  textCol : Text
  datasetName : Text
  modelName : Text
  seqLen : ℕ
  format : Option Text
  formatOptions : Option O
  cacheDir : Text
  overwriteCache : Bool
  deriving DecidableEq

variable {Rec O : Type}

def truthy : Option Text → Option Text
  | some (c :: cs) => some (c :: cs)
  | _ => none

def tokenRow (lib : Libraries Rec O) (r : Request Rec O) (text : Text) : TokenRow :=
  { inputIds := (lib.encode r.modelName r.seqLen text).1
    attentionMask := (lib.encode r.modelName r.seqLen text).2
    labels := List.zipWith (fun id mask => if mask = 0 then -100 else id)
      (lib.encode r.modelName r.seqLen text).1 (lib.encode r.modelName r.seqLen text).2 }

def texts (lib : Libraries Rec O) (r : Request Rec O) (batch : List Rec) : List Text :=
  match truthy r.format with
  | some format => batch.map (lib.render format r.formatOptions r.modelName)
  | none => batch.map (lib.column r.textCol)

def tokenizerActor (lib : Libraries Rec O) (r : Request Rec O) (batch : List Rec) :
    List TokenRow :=
  let valid := ((texts lib r batch).map (tokenRow lib r)).filter
    (fun row => decide (0 < row.attentionMask.sum))
  if valid = [] then
    [⟨List.replicate r.seqLen 0, List.replicate r.seqLen 0, List.replicate r.seqLen (-100)⟩]
  else valid

def applyMapBatches (lib : Libraries Rec O) (r : Request Rec O) : List TokenRow :=
  (lib.batches r.raw).flatMap (tokenizerActor lib r)

structure Metadata where
  modelName : Text
  seqLen : ℕ
  datasetName : Text
  formatName : Option Text
  deriving DecidableEq

/-- The parquet files, and `metadata.json` if it is there, `none` where it cannot be parsed. -/
structure Dir where
  files : List (List TokenRow)
  metadata : Option (Option Metadata)

abbrev Cache := HashMap Path Dir

def formatPart (r : Request Rec O) : Text :=
  match truthy r.format with
  | some format => ['|', 'f', 'm', 't', ':'] ++ format
  | none => []

def optionsPart (lib : Libraries Rec O) (r : Request Rec O) : Text :=
  match r.formatOptions with
  | some options => ['|', 'o', 'p', 't', 's', ':'] ++ lib.dumps options
  | none => []

def cacheKey (lib : Libraries Rec O) (r : Request Rec O) : Text :=
  (r.modelName ++ '|' :: Nat.toDigits 10 r.seqLen ++ '|' :: r.datasetName) ++
    (formatPart r ++ optionsPart lib r)

def cacheVersionHash (lib : Libraries Rec O) (r : Request Rec O) : Text :=
  lib.digest (cacheKey lib r)

def cachePath (lib : Libraries Rec O) (r : Request Rec O) : Path :=
  Path.normalise (Path.join r.cacheDir (r.datasetName ++ '_' :: cacheVersionHash lib r))

def Request.metadata (r : Request Rec O) : Metadata :=
  ⟨r.modelName, r.seqLen, r.datasetName, r.format⟩

def verifyCache (cache : Cache) (path : Path) (r : Request Rec O) : Bool :=
  match cache.lookup path with
  | none => false
  | some dir =>
    match dir.metadata with
    | some (some m) =>
      decide (m.modelName = r.modelName) && decide (m.seqLen = r.seqLen) &&
        decide (m.datasetName = r.datasetName) &&
        (r.format.isNone || decide (m.formatName = r.format)) && !dir.files.isEmpty
    | _ => false

def hit (lib : Libraries Rec O) (cache : Cache) (r : Request Rec O) : Bool :=
  verifyCache cache (cachePath lib r) r && !r.overwriteCache

/-- The directory that a call writes to, after `overwrite_cache` has removed what was there. -/
def writtenDir (lib : Libraries Rec O) (cache : Cache) (r : Request Rec O) : Dir :=
  if r.overwriteCache then ⟨[], none⟩ else (cache.lookup (cachePath lib r)).getD ⟨[], none⟩

def noCacheDir : Text :=
  "cfg.data.cache_dir must be set to use persist_tokenized(). ".toList ++
    "Set data.cache_dir in your config or pass --cache-dir.".toList

def persistTokenized (lib : Libraries Rec O) (cache : Cache) (r : Request Rec O) :
    Except Text (Path × Cache) :=
  if r.cacheDir = [] then .error noCacheDir
  else if hit lib cache r then .ok (cachePath lib r, cache)
  else .ok (cachePath lib r, cache.insert (cachePath lib r)
    ⟨(writtenDir lib cache r).files ++ lib.files (applyMapBatches lib r), some (some r.metadata)⟩)

def rowsAt (cache : Cache) (path : Path) : List TokenRow :=
  ((cache.lookup path).map (fun dir => dir.files.flatten)).getD []

def pick {α : Type} (keep : ℕ → Bool) (l : List α) : List α :=
  (l.zipIdx.filter (fun e => keep e.2)).map Prod.fst

/-- Where a call is interrupted: while the old directory is removed, while files are written, or
while `metadata.json` is. -/
inductive Cut where
  | removing (keep : ℕ → Bool) (metadataLeft : Bool)
  | writing (keep : ℕ → Bool)
  | describing

def interrupted (lib : Libraries Rec O) (cache : Cache) (r : Request Rec O) (cut : Cut) : Cache :=
  if r.cacheDir = [] ∨ hit lib cache r then cache
  else
    match cut with
    | .removing keep metadataLeft =>
      match cache.lookup (cachePath lib r) with
      | some dir =>
        if r.overwriteCache then cache.insert (cachePath lib r)
          ⟨pick keep dir.files, if metadataLeft then dir.metadata else none⟩
        else cache
      | none => cache
    | .writing keep => cache.insert (cachePath lib r)
        ⟨(writtenDir lib cache r).files ++ pick keep (lib.files (applyMapBatches lib r)),
          (writtenDir lib cache r).metadata⟩
    | .describing => cache.insert (cachePath lib r)
        ⟨(writtenDir lib cache r).files ++ lib.files (applyMapBatches lib r), some none⟩

theorem normalise_join_eq_follow (a b : Text) :
    ∃ dir, Path.normalise (Path.join a b) = Path.follow dir b := by
  by_cases hb : b.head? = some '/'
  · exact ⟨_, by rw [Path.join, if_pos hb]; rfl⟩
  · by_cases ha : a = []
    · exact ⟨_, by rw [Path.join, if_neg hb, if_pos (.inl ha), ha]; rfl⟩
    · exact ⟨_, Path.normalise_join ha hb⟩

theorem slash_not_mem_digest (lib : Libraries Rec O) (s : Text) : '/' ∉ lib.digest s := by
  intro h
  cases lib.digest_hex s '/' h with
  | inl hdigit => exact absurd hdigit (by decide)
  | inr hletter => exact absurd hletter (by decide)

theorem getLast_cachePath (lib : Libraries Rec O) (r : Request Rec O) :
    ∃ s, (cachePath lib r).parts.getLast? = some (s ++ cacheVersionHash lib r) := by
  obtain ⟨dir, hdir⟩ := normalise_join_eq_follow r.cacheDir
    (r.datasetName ++ '_' :: cacheVersionHash lib r)
  have hslash : '/' ∉ '_' :: cacheVersionHash lib r := by
    rw [List.mem_cons, not_or]
    exact ⟨by decide, slash_not_mem_digest lib _⟩
  have hmem : '_' ∈ Path.lastPart r.datasetName ++ '_' :: cacheVersionHash lib r := by simp
  have hname : Path.IsName (Path.lastPart r.datasetName ++ '_' :: cacheVersionHash lib r) := by
    refine ⟨?_, ?_, ?_, ?_⟩
    · rw [List.mem_append, not_or]
      exact ⟨Path.not_mem_lastPart _, hslash⟩
    · exact List.ne_nil_of_mem hmem
    · intro hdot
      rw [hdot] at hmem
      exact absurd hmem (by decide)
    · intro hdots
      rw [hdots] at hmem
      exact absurd hmem (by decide)
  refine ⟨Path.lastPart r.datasetName ++ ['_'], ?_⟩
  rw [cachePath, hdir, Path.follow_append hslash hname, List.getLast?_concat, List.append_assoc]
  rfl

theorem cacheVersionHash_eq {lib : Libraries Rec O} {r w : Request Rec O}
    (h : cachePath lib r = cachePath lib w) : cacheVersionHash lib r = cacheVersionHash lib w := by
  obtain ⟨s, hs⟩ := getLast_cachePath lib r
  obtain ⟨s', hs'⟩ := getLast_cachePath lib w
  rw [h, hs'] at hs
  have hlength : (cacheVersionHash lib r).length = (cacheVersionHash lib w).length :=
    (lib.digest_length _).trans (lib.digest_length _).symm
  exact (List.append_inj' (Option.some.inj hs) hlength.symm).2.symm

theorem verifyCache_iff {cache : Cache} {path : Path} {r : Request Rec O} :
    verifyCache cache path r = true ↔ ∃ dir m, cache.lookup path = some dir ∧
      dir.metadata = some (some m) ∧ m.modelName = r.modelName ∧ m.seqLen = r.seqLen ∧
      m.datasetName = r.datasetName ∧ (r.format = none ∨ m.formatName = r.format) ∧
      dir.files ≠ [] := by
  constructor
  · intro h
    rw [verifyCache] at h
    split at h
    · cases h
    · next dir hdir =>
      split at h
      · next m hm =>
        simp only [Bool.and_eq_true, Bool.or_eq_true, decide_eq_true_eq, Option.isNone_iff_eq_none,
          Bool.not_eq_true', List.isEmpty_eq_false_iff] at h
        exact ⟨dir, m, hdir, hm, h.1.1.1.1, h.1.1.1.2, h.1.1.2, h.1.2, h.2⟩
      · cases h
  · intro h
    obtain ⟨dir, m, hdir, hm, hmodel, hseq, hdataset, hformat, hfiles⟩ := h
    simp only [verifyCache, hdir, hm, hmodel, hseq, hdataset, Bool.and_eq_true, Bool.or_eq_true,
      decide_eq_true_eq, Option.isNone_iff_eq_none, Bool.not_eq_true', List.isEmpty_eq_false_iff]
    exact ⟨⟨⟨⟨trivial, trivial⟩, trivial⟩, hformat⟩, hfiles⟩

/-- What the cache cannot tell apart: requests whose metadata match, with one key. -/
structure Matches (lib : Libraries Rec O) (w r : Request Rec O) : Prop where
  model : w.modelName = r.modelName
  seqLen : w.seqLen = r.seqLen
  dataset : w.datasetName = r.datasetName
  format : r.format = none ∨ w.format = r.format
  key : cacheKey lib w = cacheKey lib r

theorem Matches.parts {lib : Libraries Rec O} {w r : Request Rec O} (h : Matches lib w r) :
    formatPart w ++ optionsPart lib w = formatPart r ++ optionsPart lib r := by
  have hkey := h.key
  rw [cacheKey, cacheKey, h.model, h.seqLen, h.dataset] at hkey
  exact List.append_cancel_left hkey

theorem Matches.truthy_format {lib : Libraries Rec O} {w r : Request Rec O}
    (h : Matches lib w r) : truthy w.format = truthy r.format := by
  cases h.format with
  | inl hnone =>
    have hparts := h.parts
    rw [hnone]
    cases hw : truthy w.format with
    | none => rfl
    | some format =>
      rw [formatPart, hw, formatPart, hnone] at hparts
      cases hoptions : r.formatOptions with
      | none =>
        rw [optionsPart, optionsPart, hoptions] at hparts
        simp [truthy] at hparts
      | some options =>
        rw [optionsPart, optionsPart, hoptions] at hparts
        simp [truthy] at hparts
  | inr hsame => rw [hsame]

theorem Matches.options {lib : Libraries Rec O} {w r : Request Rec O} (h : Matches lib w r) :
    w.formatOptions.map lib.dumps = r.formatOptions.map lib.dumps := by
  have hparts := h.parts
  rw [formatPart, formatPart, h.truthy_format] at hparts
  have hoptions := List.append_cancel_left hparts
  rw [optionsPart, optionsPart] at hoptions
  cases hw : w.formatOptions with
  | none =>
    cases hr : r.formatOptions with
    | none => rfl
    | some options => simp [hw, hr] at hoptions
  | some options =>
    cases hr : r.formatOptions with
    | none => simp [hw, hr] at hoptions
    | some options' => simpa [hw, hr] using hoptions

/-- What the cache forgets: the raw rows, the text column where no format is set, and what the text
of the options does not tell where one is. -/
structure Forgotten (lib : Libraries Rec O) (w r : Request Rec O) : Prop where
  raw : w.raw = r.raw
  textCol : truthy r.format = none → w.textCol = r.textCol
  options : truthy r.format ≠ none → w.formatOptions.map lib.dumps = r.formatOptions.map lib.dumps →
    w.formatOptions = r.formatOptions

theorem applyMapBatches_eq {lib : Libraries Rec O} {w r : Request Rec O} (h : Matches lib w r)
    (hforgotten : Forgotten lib w r) : applyMapBatches lib w = applyMapBatches lib r := by
  have htexts : texts lib w = texts lib r := by
    funext batch
    rw [texts, texts, h.truthy_format, h.model]
    cases hformat : truthy r.format with
    | none => simp only [hforgotten.textCol hformat]
    | some format =>
      have hoptions := hforgotten.options (by simp [hformat]) h.options
      simp only [hoptions]
  have hrow : tokenRow lib w = tokenRow lib r := by
    funext text
    rw [tokenRow, tokenRow, h.model, h.seqLen]
  have hactor : tokenizerActor lib w = tokenizerActor lib r := by
    funext batch
    rw [tokenizerActor, tokenizerActor, htexts, hrow, h.seqLen]
  rw [applyMapBatches, applyMapBatches, hforgotten.raw, hactor]

end Slakshna.TokenCache

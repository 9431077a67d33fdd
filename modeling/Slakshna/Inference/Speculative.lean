import Mathlib.Logic.Relation
import Slakshna.Inference.Sampling

/-! Speculative decoding as the engine drives it: a draft model proposes tokens, the target model
scores them in one call, and each is accepted or replaced. A model call appends the keys and values
of its input to the cache it is given; a cache is the tokens it holds them for, none for `None`. -/
namespace Slakshna.Speculative
open Fallible Rejection Sampling
variable {batch vocab : ℕ} {K : Type}

abbrev LanguageModel (vocab : ℕ) (K : Type) := List (Token vocab) → Token vocab → K

abbrev Column (batch vocab : ℕ) := Fin batch → Token vocab

abbrev Logits (batch vocab : ℕ) (K : Type) := Fin batch → Token vocab → K

def LanguageModel.call (model : LanguageModel vocab K)
    (input pastKeyValues : List (Column batch vocab)) :
    List (Logits batch vocab K) × List (Column batch vocab) :=
  ((List.range input.length).map (fun i b =>
    model ((pastKeyValues ++ input.take (i + 1)).map (fun col => col b))), pastKeyValues ++ input)

structure SpeculativeDecoder (vocab : ℕ) (K : Type) where
  targetModel : LanguageModel vocab K
  draftModel : Option (LanguageModel vocab K)
  numDraftTokens : ℕ
  sampling : SampleConfig K

structure Draft (batch vocab : ℕ) (K : Type) where
  token : Column batch vocab
  probs : Logits batch vocab K

structure NewTokens (batch vocab : ℕ) where
  drafts : List (Column batch vocab)
  last : Column batch vocab
  deriving DecidableEq

def NewTokens.toList (new : NewTokens batch vocab) : List (Column batch vocab) :=
  new.drafts ++ [new.last]

def lastLogits (logits : List (Logits batch vocab K)) :
    Except (SampleError K) (Logits batch vocab K) :=
  match logits.getLast? with
  | none => .error .index
  | some last => .ok last

variable [Field K] [LinearOrder K]

/-- What chance decides in one step, row by row. -/
structure Draws (batch vocab : ℕ) (K : Type) [Field K] [LinearOrder K] where
  draft : ℕ → Fin batch → Multinomial (Token vocab) K
  rand : ℕ → Fin batch → Uniform K
  resample : Fin batch → Multinomial (Token vocab) K
  next : Fin batch → Multinomial (Token vocab) K

def draftLoop (torch : Torch vocab K) (cfg : SampleConfig K) (model : LanguageModel vocab K) :
    ℕ → (ℕ → Fin batch → Multinomial (Token vocab) K) → List (Column batch vocab) →
    List (Column batch vocab) →
    Except (SampleError K) (List (Draft batch vocab K) × List (Column batch vocab))
  | 0, _, _, pastKv => .ok ([], pastKv)
  | n + 1, picks, curInput, pastKv => do
    let (logits, pastKv) := model.call curInput pastKv
    let logits ← lastLogits logits
    let probs ← logitsToProbs torch cfg logits
    let tok ← sampleFromLogits torch cfg (picks 0) logits
    let (drafts, pastKv) ← draftLoop torch cfg model n (fun i => picks (i + 1)) [tok] pastKv
    return (⟨tok, probs⟩ :: drafts, pastKv)

def draftGenerate (torch : Torch vocab K) (spec : SpeculativeDecoder vocab K)
    (draftModel : LanguageModel vocab K) (draws : Draws batch vocab K)
    (inputIds pastKv : List (Column batch vocab)) :
    Except (SampleError K) (List (Draft batch vocab K) × List (Column batch vocab)) := do
  let (drafts, pastKv) ←
    draftLoop torch spec.sampling draftModel spec.numDraftTokens draws.draft inputIds pastKv
  if drafts.isEmpty then .error .stack else .ok (drafts, pastKv)

def correctedProbs (target draft : Token vocab → K) (v : Token vocab) : K :=
  corrected target draft v / max (∑ u, corrected target draft u) clampMin

theorem correctedProbs_pos [IsStrictOrderedRing K] {p q : Token vocab → K} {v : Token vocab} :
    0 < correctedProbs p q v ↔ q v < p v := by
  rw [correctedProbs, div_pos_iff_of_pos_right (lt_max_of_lt_right clampMin_pos), corrected_pos]

def accept (rand : Uniform K) (target draft : Token vocab → K) (tok : Token vocab) : Bool :=
  decide ((rand : K) < acceptProb clampMin (target tok) (draft tok))

def rejectionSample (torch : Torch vocab K) (cfg : SampleConfig K)
    (resample next : Fin batch → Multinomial (Token vocab) K) :
    (ℕ → Fin batch → Uniform K) → List (Draft batch vocab K × Logits batch vocab K) →
    Logits batch vocab K → Except (SampleError K) (NewTokens batch vocab)
  | _, [], bonusLogits => do
    let bonusTok ← sampleFromLogits torch cfg next bonusLogits
    return ⟨[], bonusTok⟩
  | rand, (d, target) :: rest, bonusLogits =>
    let accepted := fun b => accept (rand 0 b) (target b) (d.probs b) (d.token b)
    if ∀ b, accepted b = true then do
      let new ← rejectionSample torch cfg resample next (fun i => rand (i + 1)) rest bonusLogits
      return ⟨d.token :: new.drafts, new.last⟩
    else do
      let resampled ← multinomial resample (fun b => correctedProbs (target b) (d.probs b))
      return ⟨[], fun b => if accepted b then d.token b else resampled b⟩

abbrev StepResult (batch vocab : ℕ) :=
  NewTokens batch vocab × List (Column batch vocab) × List (Column batch vocab)

def standardStep (torch : Torch vocab K) (spec : SpeculativeDecoder vocab K)
    (draws : Draws batch vocab K) (inputIds pastKv : List (Column batch vocab)) :
    Except (SampleError K) (StepResult batch vocab) := do
  let (logits, pastKv) := spec.targetModel.call inputIds pastKv
  let logits ← lastLogits logits
  let nextToken ← sampleFromLogits torch spec.sampling draws.next logits
  return (⟨[], nextToken⟩, pastKv, [])

def speculativeStep (torch : Torch vocab K) (spec : SpeculativeDecoder vocab K)
    (draftModel : LanguageModel vocab K) (draws : Draws batch vocab K)
    (inputIds targetKv draftKv : List (Column batch vocab)) :
    Except (SampleError K) (StepResult batch vocab) := do
  let (drafts, draftKv) ← draftGenerate torch spec draftModel draws inputIds draftKv
  let (logits, targetKv) := spec.targetModel.call (inputIds ++ drafts.map Draft.token) targetKv
  let targetLogits := logits.drop (logits.length - (spec.numDraftTokens + 1))
  let targetProbs ← targetLogits.mapM (logitsToProbs torch spec.sampling)
  let bonusLogits ← lastLogits targetLogits
  let new ← rejectionSample torch spec.sampling draws.resample draws.next draws.rand
    (drafts.zip targetProbs.dropLast) bonusLogits
  return (new, targetKv, draftKv)

def generateStep (torch : Torch vocab K) (spec : SpeculativeDecoder vocab K)
    (draws : Draws batch vocab K) (inputIds targetKv draftKv : List (Column batch vocab)) :
    Except (SampleError K) (StepResult batch vocab) :=
  match spec.draftModel with
  | none => standardStep torch spec draws inputIds targetKv
  | some draftModel => speculativeStep torch spec draftModel draws inputIds targetKv draftKv

structure State (batch vocab : ℕ) where
  generated : List (Column batch vocab)
  finished : Fin batch → Bool
  targetKv : List (Column batch vocab)
  draftKv : List (Column batch vocab)
  curInput : List (Column batch vocab)
  totalNew : ℕ

def State.start (inputIds : List (Column batch vocab)) : State batch vocab :=
  ⟨inputIds, fun _ => false, [], [], inputIds, 0⟩

def State.extend (eosId : Option (Token vocab)) (s : State batch vocab)
    (r : StepResult batch vocab) : State batch vocab :=
  { generated := s.generated ++ r.1.toList
    finished := fun b => s.finished b ||
      eosId.any (fun eos => r.1.toList.any (fun col => col b == eos))
    targetKv := r.2.1
    draftKv := r.2.2
    curInput := [r.1.last]
    totalNew := s.totalNew + r.1.toList.length }

def loop (torch : Torch vocab K) (spec : SpeculativeDecoder vocab K) (eosId : Option (Token vocab))
    (maxNewTokens : ℕ) (draws : ℕ → Draws batch vocab K) (s : State batch vocab) :
    Except (SampleError K) (State batch vocab) :=
  if s.totalNew < maxNewTokens then
    match generateStep torch spec (draws 0) s.curInput s.targetKv s.draftKv with
    | .error e => .error e
    | .ok r =>
      let s' := s.extend eosId r
      if ∀ b, s'.finished b = true then .ok s'
      else loop torch spec eosId maxNewTokens (fun i => draws (i + 1)) s'
  else .ok s
termination_by maxNewTokens - s.totalNew
decreasing_by
  simp only [State.extend, NewTokens.toList, List.length_append, List.length_singleton]
  omega

def generateSpeculative (torch : Torch vocab K) (spec : SpeculativeDecoder vocab K)
    (eosId : Option (Token vocab)) (draws : ℕ → Draws batch vocab K)
    (inputIds : List (Column batch vocab)) (maxNewTokens : ℕ) (sampling : SampleConfig K) :
    Except (SampleError K) (List (Column batch vocab)) := do
  let s ← loop torch { spec with sampling } eosId maxNewTokens draws (State.start inputIds)
  return s.generated

omit [Field K] [LinearOrder K] in
theorem State.extend_totalNew (eosId : Option (Token vocab)) (s : State batch vocab)
    (r : StepResult batch vocab) :
    (s.extend eosId r).totalNew = s.totalNew + (r.1.drafts.length + 1) := by
  rw [State.extend, NewTokens.toList, List.length_append, List.length_singleton]

theorem loop_extends {torch : Torch vocab K} {spec : SpeculativeDecoder vocab K}
    {eosId : Option (Token vocab)} {maxNewTokens : ℕ} {draws : ℕ → Draws batch vocab K}
    {s s' : State batch vocab} (h : loop torch spec eosId maxNewTokens draws s = .ok s') :
    ∃ new, s'.generated = s.generated ++ new := by
  induction hleft : maxNewTokens - s.totalNew using Nat.strongRecOn generalizing s draws with
  | ind left ih =>
    subst hleft
    rw [loop] at h
    by_cases hrunning : s.totalNew < maxNewTokens
    · rw [if_pos hrunning] at h
      cases hstep : generateStep torch spec (draws 0) s.curInput s.targetKv s.draftKv with
      | error e =>
        rw [hstep] at h
        cases h
      | ok r =>
        rw [hstep] at h
        simp only [] at h
        split at h
        · rw [← Except.ok.inj h]
          exact ⟨r.1.toList, rfl⟩
        · have htotal := s.extend_totalNew eosId r
          obtain ⟨new, hnew⟩ := ih (maxNewTokens - (s.extend eosId r).totalNew) (by omega) h rfl
          exact ⟨r.1.toList ++ new, by rw [hnew, State.extend, List.append_assoc]⟩
    · rw [if_neg hrunning] at h
      rw [← Except.ok.inj h]
      exact ⟨[], (List.append_nil _).symm⟩

def Iteration (torch : Torch vocab K) (spec : SpeculativeDecoder vocab K)
    (eosId : Option (Token vocab)) (maxNewTokens : ℕ) (s s' : State batch vocab) : Prop :=
  s.totalNew < maxNewTokens ∧
    ∃ draws r, generateStep torch spec draws s.curInput s.targetKv s.draftKv = .ok r ∧
      s' = s.extend eosId r ∧ ¬∀ b, s'.finished b = true

def Reached (torch : Torch vocab K) (spec : SpeculativeDecoder vocab K)
    (eosId : Option (Token vocab)) (maxNewTokens : ℕ) (inputIds : List (Column batch vocab)) :
    State batch vocab → Prop :=
  Relation.ReflTransGen (Iteration torch spec eosId maxNewTokens) (State.start inputIds)

section Steps
variable {torch : Torch vocab K} {spec : SpeculativeDecoder vocab K}
  {draftModel : LanguageModel vocab K} {draws : Draws batch vocab K}

theorem draftLoop_ok {cfg : SampleConfig K} {picks : ℕ → Fin batch → Multinomial (Token vocab) K}
    {n : ℕ} {curInput pastKv kv : List (Column batch vocab)} {drafts : List (Draft batch vocab K)}
    (h : draftLoop torch cfg draftModel n picks curInput pastKv = .ok (drafts, kv)) :
    drafts.length = n ∧
      (0 < n → kv = pastKv ++ (curInput ++ (drafts.map Draft.token).dropLast)) := by
  induction n generalizing picks curInput pastKv drafts kv with
  | zero =>
    obtain ⟨rfl, rfl⟩ := Prod.mk.inj (Except.ok.inj h)
    exact ⟨rfl, fun hn => absurd hn (Nat.lt_irrefl 0)⟩
  | succ n ih =>
    obtain ⟨logits, _, h⟩ := (bind_ok _ _ _).1 h
    obtain ⟨probs, _, h⟩ := (bind_ok _ _ _).1 h
    obtain ⟨tok, _, h⟩ := (bind_ok _ _ _).1 h
    obtain ⟨⟨rest, kv'⟩, hrest, h⟩ := (bind_ok _ _ _).1 h
    obtain ⟨rfl, rfl⟩ := Prod.mk.inj (Except.ok.inj h)
    obtain ⟨hlength, hkv⟩ := ih hrest
    refine ⟨by rw [List.length_cons, hlength], fun _ => ?_⟩
    cases n with
    | zero =>
      obtain ⟨rfl, rfl⟩ := Prod.mk.inj (Except.ok.inj hrest)
      simp
    | succ n =>
      have hne : rest.map Draft.token ≠ [] := by
        intro hnil
        rw [List.map_eq_nil_iff] at hnil
        simp [hnil] at hlength
      rw [hkv (Nat.succ_pos n), List.map_cons, List.dropLast_cons_of_ne_nil hne]
      simp

theorem zip_fst_initial {X Y : Type} (xs : List X) (ys : List Y) :
    (xs.zip ys).map Prod.fst <+: xs := by
  induction xs generalizing ys with
  | nil => exact List.nil_prefix
  | cons x xs ih =>
    cases ys with
    | nil => exact List.nil_prefix
    | cons y ys => exact List.cons_prefix_cons.2 ⟨rfl, ih ys⟩

theorem rejectionSample_ok {cfg : SampleConfig K}
    {resample next : Fin batch → Multinomial (Token vocab) K} {rand : ℕ → Fin batch → Uniform K}
    {positions : List (Draft batch vocab K × Logits batch vocab K)}
    {bonusLogits : Logits batch vocab K} {new : NewTokens batch vocab}
    (h : rejectionSample torch cfg resample next rand positions bonusLogits = .ok new) :
    new.drafts <+: (positions.map Prod.fst).map Draft.token := by
  induction positions generalizing rand new with
  | nil =>
    obtain ⟨tok, _, h⟩ := (bind_ok _ _ _).1 h
    rw [← Except.ok.inj h]
    exact List.nil_prefix
  | cons d rest ih =>
    obtain ⟨d, target⟩ := d
    rw [rejectionSample] at h
    split at h
    · obtain ⟨new', hrest, h⟩ := (bind_ok _ _ _).1 h
      rw [← Except.ok.inj h]
      exact List.cons_prefix_cons.2 ⟨rfl, ih hrest⟩
    · obtain ⟨resampled, _, h⟩ := (bind_ok _ _ _).1 h
      rw [← Except.ok.inj h]
      exact List.nil_prefix

theorem draftGenerate_ok {inputIds pastKv kv : List (Column batch vocab)}
    {drafts : List (Draft batch vocab K)}
    (h : draftGenerate torch spec draftModel draws inputIds pastKv = .ok (drafts, kv)) :
    drafts.length = spec.numDraftTokens ∧ drafts ≠ [] ∧
      kv = pastKv ++ (inputIds ++ (drafts.map Draft.token).dropLast) := by
  obtain ⟨⟨drafts', kv'⟩, hloop, h⟩ := (bind_ok _ _ _).1 h
  cases drafts' with
  | nil => cases h
  | cons d rest =>
    obtain ⟨rfl, rfl⟩ := Prod.mk.inj (Except.ok.inj h)
    obtain ⟨hlength, hkv⟩ := draftLoop_ok hloop
    exact ⟨hlength, List.cons_ne_nil _ _, hkv (hlength ▸ Nat.succ_pos _)⟩

theorem speculativeStep_ok {inputIds targetKv draftKv : List (Column batch vocab)}
    {r : StepResult batch vocab}
    (h : speculativeStep torch spec draftModel draws inputIds targetKv draftKv = .ok r) :
    ∃ drafts, drafts.length = spec.numDraftTokens ∧ drafts ≠ [] ∧ r.1.drafts <+: drafts ∧
      r.2.1 = targetKv ++ (inputIds ++ drafts) ∧ r.2.2 = draftKv ++ (inputIds ++ drafts.dropLast) := by
  obtain ⟨⟨drafts, kv⟩, hdrafts, h⟩ := (bind_ok _ _ _).1 h
  obtain ⟨targetProbs, _, h⟩ := (bind_ok _ _ _).1 h
  obtain ⟨bonusLogits, _, h⟩ := (bind_ok _ _ _).1 h
  obtain ⟨new, hnew, h⟩ := (bind_ok _ _ _).1 h
  obtain ⟨hlength, hne, hkv⟩ := draftGenerate_ok hdrafts
  rw [← Except.ok.inj h]
  refine ⟨drafts.map Draft.token, ?_, ?_, ?_, rfl, hkv⟩
  · rw [List.length_map, hlength]
  · rwa [Ne, List.map_eq_nil_iff]
  · have hprefix := rejectionSample_ok hnew
    exact hprefix.trans ((zip_fst_initial _ _).map _)

end Steps

def CachesMatch (s : State batch vocab) : Prop :=
  s.targetKv ++ s.curInput = s.generated ∧ s.draftKv ++ s.curInput = s.generated

/-- Before the first iteration nothing is cached. After it the target has at least as many tokens as
the text, and where it has no more, the draft has fewer. -/
inductive CacheLengths (s : State batch vocab) : Prop where
  | start (totalNew : s.totalNew = 0) (targetKv : s.targetKv = []) (draftKv : s.draftKv = [])
      (curInput : s.curInput = s.generated) : CacheLengths s
  | later (totalNew : 0 < s.totalNew)
      (target : s.generated.length ≤ s.targetKv.length + s.curInput.length)
      (draft : s.generated.length = s.targetKv.length + s.curInput.length →
        s.draftKv.length + s.curInput.length < s.generated.length) : CacheLengths s

section Runs
variable {torch : Torch vocab K} {target draft : LanguageModel vocab K} {numDraftTokens : ℕ}
  {sampling : SampleConfig K} {eosId : Option (Token vocab)} {maxNewTokens : ℕ}

theorem CacheLengths.extend {s : State batch vocab} (hs : CacheLengths s)
    {draws : Draws batch vocab K} {r : StepResult batch vocab}
    (h : generateStep torch ⟨target, some draft, numDraftTokens, sampling⟩ draws s.curInput
      s.targetKv s.draftKv = .ok r) : CacheLengths (s.extend eosId r) := by
  obtain ⟨drafts, hlength, hne, hprefix, htarget, hdraft⟩ := speculativeStep_ok h
  have haccepted := hprefix.length_le
  have hpos := List.length_pos_iff.2 hne
  have hcounts : r.1.toList.length = r.1.drafts.length + 1 := by
    rw [NewTokens.toList, List.length_append, List.length_singleton]
  have htargetLength : r.2.1.length = s.targetKv.length + (s.curInput.length + drafts.length) := by
    rw [htarget, List.length_append, List.length_append]
  have hdraftLength : r.2.2.length = s.draftKv.length + (s.curInput.length + (drafts.length - 1)) := by
    rw [hdraft, List.length_append, List.length_append, List.length_dropLast]
  have hgenerated : (s.extend eosId r).generated.length =
      s.generated.length + (r.1.drafts.length + 1) := by
    rw [State.extend, List.length_append, hcounts]
  apply CacheLengths.later
  · change 0 < s.totalNew + r.1.toList.length
    omega
  · change (s.extend eosId r).generated.length ≤ r.2.1.length + 1
    cases hs with
    | start _ htkv _ hcur =>
      rw [hcur] at htargetLength
      omega
    | later _ htkv _ => omega
  · change (s.extend eosId r).generated.length = r.2.1.length + 1 →
      r.2.2.length + 1 < (s.extend eosId r).generated.length
    intro hequal
    -- every draft was accepted, and the last of them is missing in the draft's cache
    cases hs with
    | start _ htkv hdkv hcur =>
      rw [hcur, htkv, List.length_nil] at htargetLength
      rw [hcur, hdkv, List.length_nil] at hdraftLength
      omega
    | later _ htkv hdkv =>
      have hbefore := hdkv (by omega)
      omega

theorem reached_lengths {inputIds : List (Column batch vocab)} {s : State batch vocab}
    (h : Reached torch ⟨target, some draft, numDraftTokens, sampling⟩ eosId maxNewTokens inputIds s) :
    CacheLengths s := by
  induction h with
  | refl => exact .start rfl rfl rfl rfl
  | tail _ hstep ih =>
    obtain ⟨_, draws, r, hr, rfl, _⟩ := hstep
    exact ih.extend hr

theorem CacheLengths.match_iff {s : State batch vocab} (hs : CacheLengths s) :
    CachesMatch s ↔ s.totalNew = 0 := by
  cases hs with
  | start hnew htarget hdraft hcur => simp [CachesMatch, hnew, htarget, hdraft, hcur]
  | later hnew htarget hdraft =>
    constructor
    · intro hmatch
      have htargetLength := congrArg List.length hmatch.1
      have hdraftLength := congrArg List.length hmatch.2
      rw [List.length_append] at htargetLength hdraftLength
      have hless := hdraft htargetLength.symm
      omega
    · intro hzero
      omega

/-- Wherever the loop tests its condition, the two caches fit the text exactly if no step was made
yet. -/
theorem reached_match_iff {inputIds : List (Column batch vocab)} {s : State batch vocab}
    (h : Reached torch ⟨target, some draft, numDraftTokens, sampling⟩ eosId maxNewTokens inputIds s) :
    CachesMatch s ↔ s.totalNew = 0 :=
  (reached_lengths h).match_iff

end Runs

def flatTorch : Torch 2 ℚ := ⟨fun _ => 1, fun _ => one_pos, stableSort⟩

def flatDecoder : SpeculativeDecoder 2 ℚ :=
  ⟨fun _ _ => 0, some (fun _ _ => 0), 1, ⟨1, 0, 1⟩⟩

def firstDraws : Draws 1 2 ℚ :=
  ⟨fun _ _ => firstPositive, fun _ _ => ⟨0, by simp⟩, fun _ => firstPositive, fun _ => firstPositive⟩

def flatStart : List (Column 1 2) := [fun _ => 0]

def flatState : State 1 2 :=
  ⟨[fun _ => 0, fun _ => 0, fun _ => 0], fun _ => false, [fun _ => 0, fun _ => 0], [fun _ => 0],
    [fun _ => 0], 2⟩

theorem flat_step : generateStep flatTorch flatDecoder firstDraws flatStart [] [] =
    .ok (⟨[fun _ => 0], fun _ => 0⟩, [fun _ => 0, fun _ => 0], [fun _ => 0]) := by
  decide +kernel

theorem flat_reached : Reached flatTorch flatDecoder none 3 flatStart flatState :=
  .single ⟨by decide, firstDraws, _, flat_step, rfl, by decide⟩

/-- The only draft was accepted, and the draft's cache lacks it. -/
theorem flat_mismatch : Reached flatTorch flatDecoder none 3 flatStart flatState ∧
    flatState.totalNew < 3 ∧ ¬CachesMatch flatState := by
  refine ⟨flat_reached, by decide, ?_⟩
  intro hmatch
  exact absurd (congrArg List.length hmatch.2) (by decide)

theorem reached_match_flat : CachesMatch flatState ↔ flatState.totalNew = 0 :=
  reached_match_iff flat_reached

end Slakshna.Speculative

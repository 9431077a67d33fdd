import Mathlib.Analysis.SpecialFunctions.Exp
import Slakshna.Inference.Round

/-! One prompt, decoded speculatively and greedily: when the two agree. The cache of the target and
the draft's distribution decide which tokens a step can give; the flag for greedy decoding does not. -/
namespace Slakshna.Speculative
open Fallible Rejection Sampling
variable {vocab : ℕ} {K : Type}

structure Request (batch vocab : ℕ) (K : Type) where
  inputIds : List (Column batch vocab)
  maxNewTokens : ℕ
  sampling : SampleConfig K
  doSample : Bool

/-- The engine: `modelGenerate` is the target's own generation, which a request gets where
speculative decoding is off. -/
structure Backend (batch vocab : ℕ) (K : Type) where
  specDec : Option (SpeculativeDecoder vocab K)
  eosId : Option (Token vocab)
  modelGenerate : Request batch vocab K → Except (SampleError K) (List (Column batch vocab))

def Backend.generate {batch : ℕ} [Field K] [LinearOrder K] (torch : Torch vocab K)
    (backend : Backend batch vocab K) (draws : ℕ → Draws batch vocab K)
    (req : Request batch vocab K) : Except (SampleError K) (List (Column batch vocab)) :=
  match backend.specDec with
  | some spec =>
    generateSpeculative torch spec backend.eosId draws req.inputIds req.maxNewTokens req.sampling
  | none => backend.modelGenerate req

def greedy [NeZero vocab] [LinearOrder K] (target : LanguageModel vocab K)
    (eosId : Option (Token vocab)) : ℕ → List (Token vocab) → List (Token vocab)
  | 0, _ => []
  | n + 1, text =>
    let tok := greedySample (target text)
    tok :: if tok ∈ eosId then [] else greedy target eosId n (text ++ [tok])

def AgreeUpToShorter {X : Type} (xs ys : List X) : Prop := xs <+: ys ∨ ys <+: xs

theorem AgreeUpToShorter.of_append {X : Type} {xs ys zs : List X}
    (h : AgreeUpToShorter (xs ++ ys) zs) : AgreeUpToShorter xs zs := by
  cases h with
  | inl h => exact .inl ((List.prefix_append xs ys).trans h)
  | inr h => exact List.prefix_or_prefix_of_prefix (List.prefix_append xs ys) h

theorem agree_append_left {X : Type} (xs ys zs : List X) :
    AgreeUpToShorter (xs ++ ys) (xs ++ zs) ↔ AgreeUpToShorter ys zs := by
  simp only [AgreeUpToShorter, List.prefix_append_right_inj]

section Greedy
variable [NeZero vocab] [LinearOrder K] {target : LanguageModel vocab K}
  {eosId : Option (Token vocab)} {n : ℕ} {text xs : List (Token vocab)}

theorem agree_greedy_of_steps (h : ∀ pre v suf, xs = pre ++ v :: suf → pre.length < n →
      (∀ e ∈ eosId, e ∉ pre) → v = greedySample (target (text ++ pre))) :
    AgreeUpToShorter xs (greedy target eosId n text) := by
  induction xs generalizing n text with
  | nil => exact .inl List.nil_prefix
  | cons x xs ih =>
    cases n with
    | zero => exact .inr List.nil_prefix
    | succ n =>
      have hx : x = greedySample (target text) := by
        have hfirst := h [] x xs rfl (Nat.succ_pos n) (fun _ _ => List.not_mem_nil)
        rwa [List.append_nil] at hfirst
      rw [greedy, ← hx]
      by_cases heos : x ∈ eosId
      · simp [heos, AgreeUpToShorter]
      · simp only [if_neg heos]
        have hrest : AgreeUpToShorter xs (greedy target eosId n (text ++ [x])) := by
          apply ih
          intro pre v suf hxs hlength hpre
          have hstep := h (x :: pre) v suf (by rw [hxs]; rfl) (Nat.succ_lt_succ hlength) (by
            intro e he hmem
            cases List.mem_cons.1 hmem with
            | inl heq => exact heos (heq ▸ he)
            | inr hmem => exact hpre e he hmem)
          rwa [List.append_assoc]
        exact (agree_append_left [x] _ _).2 hrest

theorem greedy_eq_append (h : AgreeUpToShorter xs (greedy target eosId n text))
    (hlength : xs.length ≤ n) (heos : ∀ e ∈ eosId, e ∉ xs) :
    greedy target eosId n text = xs ++ greedy target eosId (n - xs.length) (text ++ xs) := by
  induction xs generalizing n text with
  | nil => simp
  | cons x xs ih =>
    cases n with
    | zero => simp at hlength
    | succ n =>
      rw [greedy] at h ⊢
      have hx : x = greedySample (target text) := by
        cases h with
        | inl h => exact (List.cons_prefix_cons.1 h).1
        | inr h => exact (List.cons_prefix_cons.1 h).1.symm
      have hnot : x ∉ eosId := fun he => heos x he List.mem_cons_self
      rw [← hx] at h ⊢
      simp only [if_neg hnot] at h ⊢
      have hrest := (agree_append_left [x] xs _).1 h
      rw [ih hrest (Nat.le_of_succ_le_succ hlength)
        (fun e he hmem => heos e he (List.mem_cons_of_mem x hmem))]
      simp

end Greedy

/-! One row: a step as a choice of tokens. -/

def prepend {X : Type} (x : X) (xs : ℕ → X) : ℕ → X
  | 0 => x
  | i + 1 => xs i

@[simp] theorem prepend_zero {X : Type} (x : X) (xs : ℕ → X) : prepend x xs 0 = x := rfl

@[simp] theorem prepend_succ {X : Type} (x : X) (xs : ℕ → X) (i : ℕ) :
    prepend x xs (i + 1) = xs i := rfl

def col (v : Token vocab) : Column 1 vocab := fun _ => v

def rowText (cols : List (Column 1 vocab)) : List (Token vocab) := cols.map (fun c => c 0)

theorem rowText_append (xs ys : List (Column 1 vocab)) :
    rowText (xs ++ ys) = rowText xs ++ rowText ys := List.map_append

abbrev NextProbs (vocab : ℕ) (K : Type) := List (Token vocab) → Token vocab → K

def NextProbs.after (p : NextProbs vocab K) (v : Token vocab) : NextProbs vocab K :=
  fun text => p (v :: text)

def draftsOf : NextProbs vocab K → List (Token vocab) → List (Draft 1 vocab K)
  | _, [] => []
  | q, v :: vs => ⟨col v, fun _ => q []⟩ :: draftsOf (q.after v) vs

def positionsOf : NextProbs vocab K → NextProbs vocab K → List (Token vocab) →
    List (Draft 1 vocab K × Logits 1 vocab K)
  | _, _, [] => []
  | p, q, v :: vs => (⟨col v, fun _ => q []⟩, fun _ => p []) :: positionsOf (p.after v) (q.after v) vs

theorem map_token_draftsOf (q : NextProbs vocab K) (ds : List (Token vocab)) :
    (draftsOf q ds).map Draft.token = ds.map col := by
  induction ds generalizing q with
  | nil => rfl
  | cons d ds ih => rw [draftsOf, List.map_cons, ih, List.map_cons]

theorem zip_draftsOf (p q : NextProbs vocab K) (ds : List (Token vocab)) :
    (draftsOf q ds).zip ((List.range ds.length).map (fun i _ => p (ds.take i))) =
      positionsOf p q ds := by
  induction ds generalizing p q with
  | nil => rfl
  | cons d ds ih =>
    rw [List.length_cons, List.range_succ_eq_map, List.map_cons, List.map_map, draftsOf, positionsOf,
      List.zip_cons_cons, ← ih]
    rfl

theorem lastLogits_call (model : LanguageModel vocab K) {input : List (Column 1 vocab)}
    (h : input ≠ []) (past : List (Column 1 vocab)) :
    lastLogits (model.call input past).1 = .ok (fun _ => model (rowText (past ++ input))) := by
  have hrow : (fun b => model (rowOf b (past ++ input))) =
      fun _ : Fin 1 => model (rowText (past ++ input)) := by
    funext b
    rw [Subsingleton.elim b 0]
    rfl
  rw [lastLogits_rows model h, hrow]

section OneRow
variable [Field K] [LinearOrder K]

def nextProbs (torch : Torch vocab K) (cfg : SampleConfig K) (model : LanguageModel vocab K)
    (text : List (Token vocab)) : NextProbs vocab K := fun more => probs torch cfg (model (text ++ more))

def Supported : NextProbs vocab K → List (Token vocab) → Prop
  | _, [] => True
  | q, v :: vs => 0 < q [] v ∧ Supported (q.after v) vs

def Acceptable : NextProbs vocab K → NextProbs vocab K → List (Token vocab) → Prop
  | _, _, [] => True
  | p, q, v :: vs => (0 < q [] v ∧ 0 < p [] v) ∧ Acceptable (p.after v) (q.after v) vs

variable [NeZero vocab] [IsStrictOrderedRing K] {torch : Torch vocab K} {cfg : SampleConfig K}
  {model : LanguageModel vocab K}

variable (torch model) in
theorem nextProbs_distribution (hp : 0 ≤ cfg.topP) (text more : List (Token vocab)) :
    Distribution (nextProbs torch cfg model text more) := probs_distribution hp _

omit [IsStrictOrderedRing K] [NeZero vocab] in
theorem multinomial_one {w : Token vocab → K} (h : ∃ v, 0 < w v)
    (pick : Fin 1 → Multinomial (Token vocab) K) :
    multinomial pick (fun _ => w) = .ok (col ((pick 0).draw w)) := by
  rw [multinomial, if_pos (fun _ => h)]
  congr 1
  funext b
  rw [Subsingleton.elim b 0]
  rfl

theorem sample_one (ht : 0 < cfg.temperature) (hp : 0 ≤ cfg.topP) (logits : Token vocab → K)
    (pick : Fin 1 → Multinomial (Token vocab) K) :
    sampleFromLogits torch cfg pick (fun _ => logits) =
      .ok (col ((pick 0).draw (renormalised (probs torch cfg logits)))) := by
  have hprobs : Distribution (probs torch cfg logits) := probs_distribution hp logits
  obtain ⟨v, hv⟩ := hprobs.exists_pos
  rw [sampleFromLogits_eq ht, multinomial_one ⟨v, renormalised_pos.2 hv⟩]

variable (torch model) in
theorem draftLoop_succ (ht : 0 < cfg.temperature) (hp : 0 ≤ cfg.topP)
    {curInput : List (Column 1 vocab)} (hcur : curInput ≠ []) (pastKv : List (Column 1 vocab)) (n : ℕ)
    (picks : ℕ → Fin 1 → Multinomial (Token vocab) K) :
    let q := nextProbs torch cfg model (rowText (pastKv ++ curInput))
    let tok := (picks 0 0).draw (renormalised (q []))
    draftLoop torch cfg model (n + 1) picks curInput pastKv = (do
      let (drafts, kv) ← draftLoop torch cfg model n (fun i => picks (i + 1)) [col tok]
        (pastKv ++ curInput)
      return (⟨col tok, fun _ => q []⟩ :: drafts, kv)) := by
  have hq : nextProbs torch cfg model (rowText (pastKv ++ curInput)) [] =
      probs torch cfg (model (rowText (pastKv ++ curInput))) := by
    rw [nextProbs, List.append_nil]
  simp only [hq]
  rw [draftLoop]
  simp only [lastLogits_call model hcur, logitsToProbs_eq ht, sample_one ht hp, ok_bind]
  rfl

omit [NeZero vocab] [IsStrictOrderedRing K] in
theorem nextProbs_after (text : List (Token vocab)) (cols : List (Column 1 vocab)) (v : Token vocab)
    (h : text = rowText cols) : nextProbs torch cfg model (rowText (cols ++ [col v])) =
      (nextProbs torch cfg model text).after v := by
  funext more
  rw [h, nextProbs, NextProbs.after, nextProbs, rowText, List.map_append, List.append_assoc]
  rfl

variable (torch model) in
theorem draftLoop_supported (ht : 0 < cfg.temperature) (hp : 0 ≤ cfg.topP) (n : ℕ)
    (picks : ℕ → Fin 1 → Multinomial (Token vocab) K) {curInput : List (Column 1 vocab)}
    (hcur : curInput ≠ []) (pastKv : List (Column 1 vocab)) :
    ∃ ds kv, Supported (nextProbs torch cfg model (rowText (pastKv ++ curInput))) ds ∧
      ds.length = n ∧ draftLoop torch cfg model n picks curInput pastKv =
        .ok (draftsOf (nextProbs torch cfg model (rowText (pastKv ++ curInput))) ds, kv) := by
  induction n generalizing picks curInput pastKv with
  | zero => exact ⟨[], pastKv, trivial, rfl, rfl⟩
  | succ n ih =>
    have hsucc := draftLoop_succ torch model ht hp hcur pastKv n picks
    obtain ⟨v, hv⟩ := (nextProbs_distribution torch model hp
      (rowText (pastKv ++ curInput)) []).exists_pos
    have hdraw := (picks 0 0).draw_pos _ ⟨v, renormalised_pos.2 hv⟩
    obtain ⟨ds, kv, hds, hlength, hloop⟩ := ih (fun i => picks (i + 1)) (List.cons_ne_nil _ [])
      (pastKv ++ curInput)
    rw [nextProbs_after _ _ _ rfl] at hds hloop
    refine ⟨_ :: ds, kv, ⟨renormalised_pos.1 hdraw, hds⟩, by rw [List.length_cons, hlength], ?_⟩
    rw [hsucc]
    simp only [hloop, ok_bind]
    rfl

theorem exists_picks (ht : 0 < cfg.temperature) (hp : 0 ≤ cfg.topP) {n : ℕ}
    {vs : List (Token vocab)} (hn : vs.length ≤ n) {curInput : List (Column 1 vocab)}
    (hcur : curInput ≠ []) (pastKv : List (Column 1 vocab))
    (hvs : Supported (nextProbs torch cfg model (rowText (pastKv ++ curInput))) vs) :
    ∃ picks ds kv, vs <+: ds ∧
      Supported (nextProbs torch cfg model (rowText (pastKv ++ curInput))) ds ∧
      ds.length = n ∧ draftLoop torch cfg model n picks curInput pastKv =
        .ok (draftsOf (nextProbs torch cfg model (rowText (pastKv ++ curInput))) ds, kv) := by
  induction n generalizing vs curInput pastKv with
  | zero =>
    rw [List.eq_nil_of_length_eq_zero (Nat.le_zero.1 hn)]
    exact ⟨fun _ _ => firstPositive, [], pastKv, List.nil_prefix, trivial, rfl, rfl⟩
  | succ n ih =>
    cases vs with
    | nil =>
      obtain ⟨ds, kv, hds, hlength, hloop⟩ := draftLoop_supported torch model
        ht hp (n + 1) (fun _ _ => firstPositive) hcur pastKv
      exact ⟨_, ds, kv, List.nil_prefix, hds, hlength, hloop⟩
    | cons v vs =>
      obtain ⟨m, hm⟩ := exists_draw (renormalised_pos.2 hvs.1)
      have hvs' := hvs.2
      rw [← nextProbs_after _ _ _ rfl] at hvs'
      obtain ⟨picks, ds, kv, hinitial, hds, hlength, hloop⟩ :=
        ih (Nat.le_of_succ_le_succ hn) (List.cons_ne_nil (col v) []) (pastKv ++ curInput) hvs'
      rw [nextProbs_after _ _ _ rfl] at hds hloop
      refine ⟨prepend (fun _ => m) picks, v :: ds, kv,
        List.cons_prefix_cons.2 ⟨rfl, hinitial⟩, ⟨hvs.1, hds⟩, by rw [List.length_cons, hlength], ?_⟩
      rw [draftLoop_succ torch model ht hp hcur]
      simp only [prepend_zero, prepend_succ, hm, hloop, ok_bind]
      rfl

def ResampleFails (p q : Token vocab → K) : Prop :=
  (∃ d, 0 < q d ∧ p d < max (q d) clampMin) ∧ ∀ v, p v ≤ q v

section Rejection
variable {resample next : Fin 1 → Multinomial (Token vocab) K} {rand : ℕ → Fin 1 → Uniform K}
  {p q : NextProbs vocab K} {ds : List (Token vocab)} {logits : Token vocab → K}

omit [NeZero vocab] [IsStrictOrderedRing K] in
theorem rejectionSample_one (d : Draft 1 vocab K) (target : Logits 1 vocab K)
    (rest : List (Draft 1 vocab K × Logits 1 vocab K)) (bonusLogits : Logits 1 vocab K) :
    rejectionSample torch cfg resample next rand ((d, target) :: rest) bonusLogits =
      if accept (rand 0 0) (target 0) (d.probs 0) (d.token 0) = true then do
        let new ← rejectionSample torch cfg resample next (fun i => rand (i + 1)) rest bonusLogits
        return ⟨d.token :: new.drafts, new.last⟩
      else do
        let resampled ← multinomial resample (fun b => correctedProbs (target b) (d.probs b))
        return ⟨[], resampled⟩ := by
  rw [rejectionSample]
  by_cases haccept : accept (rand 0 0) (target 0) (d.probs 0) (d.token 0) = true
  · have hall : ∀ b, accept (rand 0 b) (target b) (d.probs b) (d.token b) = true := by
      intro b
      rw [Subsingleton.elim b 0]
      exact haccept
    rw [if_pos haccept, if_pos hall]
  · have hone : ∀ b, ¬accept (rand 0 b) (target b) (d.probs b) (d.token b) = true := by
      intro b
      rw [Subsingleton.elim b 0]
      exact haccept
    rw [if_neg haccept, if_neg (fun hall => hone 0 (hall 0))]
    simp only [if_neg (hone _)]

omit [NeZero vocab] [IsStrictOrderedRing K] in
theorem rejectionSample_cons (v : Token vocab) :
    rejectionSample torch cfg resample next rand (positionsOf p q (v :: ds)) (fun _ => logits) =
      if accept (rand 0 0) (p []) (q []) v = true then do
        let new ← rejectionSample torch cfg resample next (fun i => rand (i + 1))
          (positionsOf (p.after v) (q.after v) ds) (fun _ => logits)
        return ⟨col v :: new.drafts, new.last⟩
      else do
        let resampled ← multinomial resample (fun _ => correctedProbs (p []) (q []))
        return ⟨[], resampled⟩ := rejectionSample_one _ _ _ _

omit [NeZero vocab] in
theorem pos_of_accept {u : Uniform K} {p q : Token vocab → K} {v : Token vocab}
    (h : accept u p q v = true) : 0 < p v :=
  (acceptProb_pos clampMin_pos).1 (u.2.1.trans_lt (of_decide_eq_true h))

omit [NeZero vocab] in
theorem lt_of_not_accept {u : Uniform K} {p q : Token vocab → K} {v : Token vocab} (hp : 0 ≤ p v)
    (h : ¬accept u p q v = true) : p v < max (q v) clampMin := by
  have hle := not_lt.1 (of_decide_eq_false (Bool.eq_false_of_not_eq_true h))
  exact (acceptProb_lt_one clampMin_pos hp).1 (hle.trans_lt u.2.2)

omit [NeZero vocab] in
theorem rejectionSample_sound (ht : 0 < cfg.temperature) (hbonus : probs torch cfg logits = p ds)
    (hq : ∀ l v, 0 ≤ q l v) (hds : Supported q ds) {new : NewTokens 1 vocab}
    (h : rejectionSample torch cfg resample next rand (positionsOf p q ds) (fun _ => logits) =
      .ok new) :
    Acceptable p q (rowText new.drafts) ∧ 0 < p (rowText new.drafts) (new.last 0) := by
  induction ds generalizing p q rand new with
  | nil =>
    obtain ⟨tok, htok, h⟩ := (bind_ok _ _ _).1 h
    rw [sampleFromLogits_eq ht] at htok
    have hpos := renormalised_pos.1 (multinomial_ok htok 0)
    rw [hbonus] at hpos
    rw [← Except.ok.inj h]
    exact ⟨trivial, hpos⟩
  | cons v vs ih =>
    rw [rejectionSample_cons] at h
    by_cases haccept : accept (rand 0 0) (p []) (q []) v = true
    · rw [if_pos haccept] at h
      obtain ⟨new', hrest, h⟩ := (bind_ok _ _ _).1 h
      obtain ⟨hacceptable, hpos⟩ := ih (p := p.after v) hbonus (fun l => hq (v :: l)) hds.2 hrest
      rw [← Except.ok.inj h]
      exact ⟨⟨⟨hds.1, pos_of_accept haccept⟩, hacceptable⟩, hpos⟩
    · rw [if_neg haccept] at h
      obtain ⟨resampled, hresampled, h⟩ := (bind_ok _ _ _).1 h
      have hcorrected := correctedProbs_pos.1 (multinomial_ok hresampled 0)
      rw [← Except.ok.inj h]
      exact ⟨trivial, (hq [] (resampled 0)).trans_lt hcorrected⟩

theorem rejectionSample_total (resample next : Fin 1 → Multinomial (Token vocab) K)
    (rand : ℕ → Fin 1 → Uniform K) (logits : Token vocab → K) (ht : 0 < cfg.temperature)
    (htop : 0 ≤ cfg.topP) (hp : ∀ l v, 0 ≤ p l v) (hds : Supported q ds)
    (hsafe : ∀ vs, Acceptable p q vs → vs.length < ds.length → ¬ResampleFails (p vs) (q vs)) :
    ∃ new, rejectionSample torch cfg resample next rand (positionsOf p q ds) (fun _ => logits) =
      .ok new := by
  induction ds generalizing p q rand with
  | nil =>
    refine ⟨⟨[], col ((next 0).draw (renormalised (probs torch cfg logits)))⟩, ?_⟩
    rw [positionsOf, rejectionSample, sample_one ht htop]
    rfl
  | cons v vs ih =>
    rw [rejectionSample_cons]
    by_cases haccept : accept (rand 0 0) (p []) (q []) v = true
    · have hrest : ∃ new, rejectionSample torch cfg resample next (fun i => rand (i + 1))
          (positionsOf (p.after v) (q.after v) vs) (fun _ => logits) = .ok new := by
        apply ih (fun i => rand (i + 1)) (fun l => hp (v :: l)) hds.2
        intro ws hws hlength
        exact hsafe (v :: ws) ⟨⟨hds.1, pos_of_accept haccept⟩, hws⟩ (Nat.succ_lt_succ hlength)
      obtain ⟨new, hnew⟩ := hrest
      refine ⟨⟨col v :: new.drafts, new.last⟩, ?_⟩
      rw [if_pos haccept, hnew]
      rfl
    · have hfails := hsafe [] trivial (Nat.succ_pos _)
      have hsome : ∃ u, q [] u < p [] u := by
        by_contra hnone
        push Not at hnone
        exact hfails ⟨⟨v, hds.1, lt_of_not_accept (hp [] v) haccept⟩, hnone⟩
      obtain ⟨u, hu⟩ := hsome
      refine ⟨⟨[], col ((resample 0).draw (correctedProbs (p []) (q [])))⟩, ?_⟩
      rw [if_neg haccept, multinomial_one ⟨u, correctedProbs_pos.2 hu⟩]
      rfl

omit [NeZero vocab] in
theorem accept_zero {u : Uniform K} (hu : (u : K) = 0) {p q : Token vocab → K} {v : Token vocab}
    (h : 0 < p v) : accept u p q v = true := by
  rw [accept, hu]
  exact decide_eq_true ((acceptProb_pos clampMin_pos).2 h)

def zeroRand : Uniform K := ⟨0, le_refl 0, one_pos⟩

omit [NeZero vocab] in
theorem rejectionSample_accepts {vs : List (Token vocab)} (hvs : Acceptable p q vs)
    (hinitial : vs <+: ds) {new : NewTokens 1 vocab}
    (h : rejectionSample torch cfg resample next (fun _ _ => zeroRand) (positionsOf p q ds)
      (fun _ => logits) = .ok new) : vs <+: rowText new.drafts := by
  induction vs generalizing p q ds new with
  | nil => exact List.nil_prefix
  | cons v vs ih =>
    cases ds with
    | nil => simp at hinitial
    | cons d ds =>
      obtain ⟨rfl, hrest⟩ := List.cons_prefix_cons.1 hinitial
      rw [rejectionSample_cons, if_pos (accept_zero rfl hvs.1.2)] at h
      obtain ⟨new', hnew, h⟩ := (bind_ok _ _ _).1 h
      rw [← Except.ok.inj h]
      exact List.cons_prefix_cons.2 ⟨rfl, ih hvs.2 hrest hnew⟩

variable (torch cfg) in
omit [NeZero vocab] in
theorem rejectionSample_rejects (rest : List (Token vocab)) (hp : ∀ l v, 0 ≤ p l v)
    {vs : List (Token vocab)} {d : Token vocab} (hvs : Acceptable p q vs)
    (hd : p vs d < max (q vs d) clampMin) :
    ∃ rand, ∀ (resample next : Fin 1 → Multinomial (Token vocab) K) (logits : Token vocab → K),
      rejectionSample torch cfg resample next rand (positionsOf p q (vs ++ d :: rest))
        (fun _ => logits) = (do
          let resampled ← multinomial resample (fun _ => correctedProbs (p vs) (q vs))
          return ⟨vs.map col, resampled⟩) := by
  induction vs generalizing p q with
  | nil =>
    have hless : acceptProb clampMin (p [] d) (q [] d) < 1 :=
      (acceptProb_lt_one clampMin_pos (hp [] d)).2 hd
    have hnonneg := acceptProb_nonneg clampMin_pos (p [] d) (q [] d)
    refine ⟨fun _ _ => ⟨_, hnonneg, hless⟩, ?_⟩
    intro resample next logits
    rw [List.nil_append, rejectionSample_cons, if_neg]
    · rfl
    · simp [accept]
  | cons v vs ih =>
    obtain ⟨rand, hrand⟩ := ih (p := p.after v) (q := q.after v) (fun l => hp (v :: l)) hvs.2 hd
    refine ⟨prepend (fun _ => zeroRand) rand, ?_⟩
    intro resample next logits
    rw [List.cons_append, rejectionSample_cons, if_pos (accept_zero rfl hvs.1.2)]
    simp only [prepend_succ, hrand, NextProbs.after]
    cases multinomial resample (fun _ => correctedProbs (p (v :: vs)) (q (v :: vs))) <;> rfl

omit [NeZero vocab] in
theorem rejectionSample_all {vs : List (Token vocab)} (hvs : Acceptable p q vs) :
    rejectionSample torch cfg resample next (fun _ _ => zeroRand) (positionsOf p q vs)
      (fun _ => logits) = (do
        let bonusTok ← sampleFromLogits torch cfg next (fun _ => logits)
        return ⟨vs.map col, bonusTok⟩) := by
  induction vs generalizing p q with
  | nil => rfl
  | cons v vs ih =>
    rw [rejectionSample_cons, if_pos (accept_zero rfl hvs.1.2), ih hvs.2]
    cases sampleFromLogits torch cfg next (fun _ => logits) <;> rfl

end Rejection

section Supports
variable {p q : NextProbs vocab K} {vs : List (Token vocab)} {v : Token vocab}

omit [NeZero vocab] [IsStrictOrderedRing K] in
theorem Acceptable.supported (h : Acceptable p q vs) : Supported q vs := by
  induction vs generalizing p q with
  | nil => trivial
  | cons u vs ih => exact ⟨h.1.1, ih h.2⟩

omit [NeZero vocab] [IsStrictOrderedRing K] in
theorem Supported.snoc (h : Supported q vs) (hv : 0 < q vs v) : Supported q (vs ++ [v]) := by
  induction vs generalizing q with
  | nil => exact ⟨hv, trivial⟩
  | cons u vs ih => exact ⟨h.1, ih h.2 hv⟩

omit [NeZero vocab] [IsStrictOrderedRing K] in
theorem Acceptable.snoc (h : Acceptable p q vs) (hq : 0 < q vs v) (hp : 0 < p vs v) :
    Acceptable p q (vs ++ [v]) := by
  induction vs generalizing p q with
  | nil => exact ⟨⟨hq, hp⟩, trivial⟩
  | cons u vs ih => exact ⟨h.1, ih h.2 hq hp⟩

omit [NeZero vocab] [IsStrictOrderedRing K] in
theorem Acceptable.split {pre suf : List (Token vocab)} (h : Acceptable p q (pre ++ v :: suf)) :
    Acceptable p q pre ∧ 0 < p pre v := by
  induction pre generalizing p q with
  | nil => exact ⟨trivial, h.1.2⟩
  | cons u pre ih => exact ⟨⟨h.1, (ih h.2).1⟩, (ih h.2).2⟩

end Supports

section Step
variable {target draft : LanguageModel vocab K} {numDraftTokens : ℕ}
  {curInput targetKv draftKv : List (Column 1 vocab)}

omit [Field K] [LinearOrder K] [NeZero vocab] [IsStrictOrderedRing K] in
theorem target_logits (model : LanguageModel vocab K) (hcur : curInput ≠ [])
    (past : List (Column 1 vocab)) (ds : List (Token vocab)) :
    let logits := (model.call (curInput ++ ds.map col) past).1
    logits.drop (logits.length - (ds.length + 1)) =
      (List.range (ds.length + 1)).map (fun i _ => model (rowText (past ++ curInput) ++ ds.take i)) := by
  have hpos := List.length_pos_iff.2 hcur
  apply List.ext_getElem
  · simp only [LanguageModel.call, List.length_drop, List.length_map, List.length_range,
      List.length_append]
    omega
  · intro i hi hi'
    have hindex : (curInput ++ ds.map col).length - (ds.length + 1) + i + 1 = curInput.length + i := by
      rw [List.length_append, List.length_map]
      omega
    have htext : rowText (past ++ (curInput ++ (ds.map col).take i)) =
        rowText (past ++ curInput) ++ ds.take i := by
      simp [rowText, List.map_take, col, Function.comp_def]
    simp only [LanguageModel.call, List.getElem_drop, List.getElem_map, List.getElem_range,
      List.length_map, List.length_range, hindex, List.take_length_add_append]
    funext b
    rw [Subsingleton.elim b 0, ← htext]
    rfl

omit [NeZero vocab] in
theorem speculativeStep_row (ht : 0 < cfg.temperature) (hcur : curInput ≠ [])
    {draws : Draws 1 vocab K} {ds : List (Token vocab)} {q : NextProbs vocab K}
    {kv : List (Column 1 vocab)} (hne : ds ≠ []) (hlength : ds.length = numDraftTokens)
    (hdrafts : draftLoop torch cfg draft numDraftTokens draws.draft curInput draftKv =
      .ok (draftsOf q ds, kv)) :
    generateStep torch ⟨target, some draft, numDraftTokens, cfg⟩ draws curInput targetKv draftKv = (do
      let new ← rejectionSample torch cfg draws.resample draws.next draws.rand
        (positionsOf (nextProbs torch cfg target (rowText (targetKv ++ curInput))) q ds)
        (fun _ => target (rowText (targetKv ++ curInput) ++ ds))
      return (new, targetKv ++ (curInput ++ ds.map col), kv)) := by
  have hgenerate : draftGenerate torch ⟨target, some draft, numDraftTokens, cfg⟩ draft draws curInput
      draftKv = .ok (draftsOf q ds, kv) := by
    rw [draftGenerate, hdrafts]
    cases ds with
    | nil => exact absurd rfl hne
    | cons d ds => rfl
  have hlogits := target_logits target hcur targetKv ds
  have hlast : lastLogits ((List.range (ds.length + 1)).map (fun i (_ : Fin 1) =>
      target (rowText (targetKv ++ curInput) ++ ds.take i))) =
      .ok (fun _ => target (rowText (targetKv ++ curInput) ++ ds)) := by
    rw [lastLogits, List.range_succ, List.map_append, List.map_singleton, List.getLast?_concat,
      List.take_length]
  have hprobs : ((List.range (ds.length + 1)).map (fun i (_ : Fin 1) =>
      target (rowText (targetKv ++ curInput) ++ ds.take i))).mapM (logitsToProbs torch cfg) =
      .ok ((List.range (ds.length + 1)).map (fun i _ =>
        nextProbs torch cfg target (rowText (targetKv ++ curInput)) (ds.take i))) := by
    rw [mapM_ok (fun logits _ => logitsToProbs_eq ht), List.map_map]
    rfl
  have hpositions : (draftsOf q ds).zip ((List.range (ds.length + 1)).map (fun i (_ : Fin 1) =>
      nextProbs torch cfg target (rowText (targetKv ++ curInput)) (ds.take i))).dropLast =
      positionsOf (nextProbs torch cfg target (rowText (targetKv ++ curInput))) q ds := by
    rw [List.range_succ, List.map_append, List.map_singleton, List.dropLast_concat, zip_draftsOf]
  change speculativeStep torch _ draft draws curInput targetKv draftKv = _
  rw [speculativeStep, hgenerate]
  simp only [ok_bind, map_token_draftsOf, ← hlength, hlogits, hprobs, hlast, hpositions]
  rfl

end Step

def targetProbs (torch : Torch vocab K) (cfg : SampleConfig K) (target : LanguageModel vocab K)
    (s : State 1 vocab) : NextProbs vocab K :=
  nextProbs torch cfg target (rowText (s.targetKv ++ s.curInput))

def draftProbs (torch : Torch vocab K) (cfg : SampleConfig K) (draft : LanguageModel vocab K)
    (s : State 1 vocab) : NextProbs vocab K :=
  nextProbs torch cfg draft (rowText (s.draftKv ++ s.curInput))

structure Steppable (cfg : SampleConfig K) (numDraftTokens : ℕ) (s : State 1 vocab) : Prop where
  temperature : 0 < cfg.temperature
  topP : 0 ≤ cfg.topP
  drafts : 0 < numDraftTokens
  input : s.curInput ≠ []

section States
variable {target draft : LanguageModel vocab K} {numDraftTokens : ℕ} {s : State 1 vocab}

omit [NeZero vocab] in
theorem steppable_of_ok {draws : Draws 1 vocab K} {r : StepResult 1 vocab}
    (h : generateStep torch ⟨target, some draft, numDraftTokens, cfg⟩ draws s.curInput s.targetKv
      s.draftKv = .ok r) : Steppable cfg numDraftTokens s := by
  obtain ⟨⟨drafts, kv⟩, hdrafts, _⟩ := (bind_ok _ _ _).1 h
  obtain ⟨hlength, hne, _⟩ := draftGenerate_ok hdrafts
  obtain ⟨⟨drafts', kv'⟩, hloop, _⟩ := (bind_ok _ _ _).1 hdrafts
  cases numDraftTokens with
  | zero => exact absurd (List.eq_nil_of_length_eq_zero hlength) hne
  | succ n =>
    obtain ⟨logits, hlogits, h⟩ := (bind_ok _ _ _).1 hloop
    obtain ⟨weights, hweights, h⟩ := (bind_ok _ _ _).1 h
    obtain ⟨tok, htok, _⟩ := (bind_ok _ _ _).1 h
    have ht : 0 < cfg.temperature := by
      by_contra hcold
      rw [logitsToProbs_error hcold] at hweights
      cases hweights
    refine ⟨ht, ?_, Nat.succ_pos n, ?_⟩
    · by_contra hnegative
      rw [sampleFromLogits_eq ht] at htok
      have hpos := renormalised_pos.1 (multinomial_ok htok 0)
      rw [probs_zero (not_le.1 hnegative)] at hpos
      exact lt_irrefl _ hpos
    · intro hnil
      rw [hnil] at hlogits
      cases hlogits

variable (torch target draft) in
theorem step_row (hs : Steppable cfg numDraftTokens s) (draws : Draws 1 vocab K) :
    ∃ ds kv, Supported (draftProbs torch cfg draft s) ds ∧ ds.length = numDraftTokens ∧
      generateStep torch ⟨target, some draft, numDraftTokens, cfg⟩ draws s.curInput s.targetKv
        s.draftKv = (do
          let new ← rejectionSample torch cfg draws.resample draws.next draws.rand
            (positionsOf (targetProbs torch cfg target s) (draftProbs torch cfg draft s) ds)
            (fun _ => target (rowText (s.targetKv ++ s.curInput) ++ ds))
          return (new, s.targetKv ++ (s.curInput ++ ds.map col), kv)) := by
  obtain ⟨ds, kv, hds, hlength, hloop⟩ := draftLoop_supported torch draft hs.temperature hs.topP
    numDraftTokens draws.draft hs.input s.draftKv
  have hne : ds ≠ [] := List.ne_nil_of_length_pos (hlength ▸ hs.drafts)
  exact ⟨ds, kv, hds, hlength, speculativeStep_row hs.temperature hs.input hne hlength hloop⟩

variable (torch target) in
theorem exists_step_row (hs : Steppable cfg numDraftTokens s) {vs : List (Token vocab)}
    (hvs : Supported (draftProbs torch cfg draft s) vs) (hn : vs.length ≤ numDraftTokens) :
    ∃ picks ds kv, vs <+: ds ∧ ds.length = numDraftTokens ∧ ∀ rand resample next,
      generateStep torch ⟨target, some draft, numDraftTokens, cfg⟩ ⟨picks, rand, resample, next⟩
        s.curInput s.targetKv s.draftKv = (do
          let new ← rejectionSample torch cfg resample next rand
            (positionsOf (targetProbs torch cfg target s) (draftProbs torch cfg draft s) ds)
            (fun _ => target (rowText (s.targetKv ++ s.curInput) ++ ds))
          return (new, s.targetKv ++ (s.curInput ++ ds.map col), kv)) := by
  obtain ⟨picks, ds, kv, hinitial, _, hlength, hloop⟩ :=
    exists_picks hs.temperature hs.topP hn hs.input s.draftKv hvs
  have hne : ds ≠ [] := List.ne_nil_of_length_pos (hlength ▸ hs.drafts)
  refine ⟨picks, ds, kv, hinitial, hlength, ?_⟩
  intro rand resample next
  exact speculativeStep_row hs.temperature hs.input hne hlength hloop

theorem step_sound {draws : Draws 1 vocab K} {r : StepResult 1 vocab}
    (h : generateStep torch ⟨target, some draft, numDraftTokens, cfg⟩ draws s.curInput s.targetKv
      s.draftKv = .ok r) :
    r.1.drafts.length ≤ numDraftTokens ∧
      Acceptable (targetProbs torch cfg target s) (draftProbs torch cfg draft s)
        (rowText r.1.drafts) ∧
      0 < targetProbs torch cfg target s (rowText r.1.drafts) (r.1.last 0) := by
  obtain ⟨drafts, hlength, _, hinitial, _⟩ := speculativeStep_ok h
  have hs := steppable_of_ok h
  obtain ⟨ds, kv, hds, _, hstep⟩ := step_row torch target draft hs draws
  rw [hstep] at h
  obtain ⟨new, hnew, h⟩ := (bind_ok _ _ _).1 h
  refine ⟨hinitial.length_le.trans_eq hlength, ?_⟩
  rw [← Except.ok.inj h]
  exact rejectionSample_sound hs.temperature rfl
    (fun l v => (nextProbs_distribution _ _ hs.topP _ l).nonneg v) hds hnew

variable (target) in
theorem step_total (hs : Steppable cfg numDraftTokens s)
    (hsafe : ∀ vs, Acceptable (targetProbs torch cfg target s) (draftProbs torch cfg draft s) vs →
      vs.length < numDraftTokens →
      ¬ResampleFails (targetProbs torch cfg target s vs) (draftProbs torch cfg draft s vs))
    (draws : Draws 1 vocab K) :
    ∃ r, generateStep torch ⟨target, some draft, numDraftTokens, cfg⟩ draws s.curInput s.targetKv
      s.draftKv = .ok r := by
  obtain ⟨ds, kv, hds, hlength, hstep⟩ := step_row torch target draft hs draws
  obtain ⟨new, hnew⟩ := rejectionSample_total draws.resample draws.next draws.rand
    (target (rowText (s.targetKv ++ s.curInput) ++ ds)) hs.temperature hs.topP
    (p := targetProbs torch cfg target s)
    (fun l v => (nextProbs_distribution _ _ hs.topP _ l).nonneg v) hds (by rwa [hlength])
  exact ⟨_, hstep.trans ((bind_ok _ _ _).2 ⟨new, hnew, rfl⟩)⟩

theorem step_reaches (hs : Steppable cfg numDraftTokens s) {vs : List (Token vocab)}
    {v : Token vocab}
    (hvs : Acceptable (targetProbs torch cfg target s) (draftProbs torch cfg draft s) vs)
    (hlength : vs.length ≤ numDraftTokens) (hv : 0 < targetProbs torch cfg target s vs v) :
    ∃ draws : Draws 1 vocab K, ∀ r, generateStep torch ⟨target, some draft, numDraftTokens, cfg⟩ draws
      s.curInput s.targetKv s.draftKv = .ok r → vs ++ [v] <+: rowText r.1.toList := by
  have hq := nextProbs_distribution torch draft hs.topP (rowText (s.draftKv ++ s.curInput)) vs
  have hp := nextProbs_distribution torch target hs.topP (rowText (s.targetKv ++ s.curInput)) vs
  have hsnocLength : ∀ u : Token vocab, vs.length < numDraftTokens →
      (vs ++ [u]).length ≤ numDraftTokens := by
    intro u hless
    rw [List.length_append, List.length_singleton]
    omega
  cases Nat.lt_or_eq_of_le hlength with
  | inl hless =>
    by_cases hproposed : 0 < draftProbs torch cfg draft s vs v
    · -- the draft proposes the token and it is accepted
      have hsnoc := hvs.snoc hproposed hv
      obtain ⟨picks, ds, kv, hinitial, _, hstep⟩ :=
        exists_step_row torch target hs hsnoc.supported (hsnocLength v hless)
      refine ⟨⟨picks, fun _ _ => zeroRand, fun _ => firstPositive, fun _ => firstPositive⟩, ?_⟩
      intro r hr
      rw [hstep] at hr
      obtain ⟨new, hnew, hr⟩ := (bind_ok _ _ _).1 hr
      have haccepted := rejectionSample_accepts hsnoc hinitial hnew
      rw [← Except.ok.inj hr, NewTokens.toList, rowText, List.map_append]
      exact haccepted.trans (List.prefix_append _ _)
    · -- it proposes another that is rejected, and the token is drawn in its place
      have hzero := le_antisymm (not_lt.1 hproposed) (hq.nonneg v)
      obtain ⟨d, hd⟩ := exists_lt_of_lt hp hq (hzero.trans_lt hv)
      have hsupported : Supported (draftProbs torch cfg draft s) (vs ++ [d]) :=
        hvs.supported.snoc ((hp.nonneg d).trans_lt hd)
      obtain ⟨picks, ds, kv, hinitial, _, hstep⟩ :=
        exists_step_row torch target hs hsupported (hsnocLength d hless)
      obtain ⟨rest, rfl⟩ := hinitial
      obtain ⟨rand, hrand⟩ := rejectionSample_rejects torch cfg rest
        (p := targetProbs torch cfg target s)
        (fun l v => (nextProbs_distribution _ _ hs.topP _ l).nonneg v) hvs (lt_max_of_lt_left hd)
      obtain ⟨m, hm⟩ := exists_draw (correctedProbs_pos.2 (hzero.trans_lt hv))
      refine ⟨⟨picks, rand, fun _ => m, fun _ => firstPositive⟩, ?_⟩
      intro r hr
      have hdraw := multinomial_one ⟨v, correctedProbs_pos.2 (hzero.trans_lt hv)⟩ (fun _ => m)
      rw [hstep, List.append_assoc, List.singleton_append, hrand] at hr
      obtain ⟨new, hnew, hr⟩ := (bind_ok _ _ _).1 hr
      obtain ⟨resampled, hresampled, hnew⟩ := (bind_ok _ _ _).1 hnew
      rw [hdraw, hm] at hresampled
      rw [← Except.ok.inj hr, ← Except.ok.inj hnew, ← Except.ok.inj hresampled]
      simp [NewTokens.toList, rowText, col, Function.comp_def]
  | inr hall =>
    -- every draft is accepted, and the token is the bonus
    obtain ⟨picks, ds, kv, hinitial, hdsLength, hstep⟩ :=
      exists_step_row torch target hs hvs.supported hlength
    have hds : vs = ds := hinitial.eq_of_length (hall.trans hdsLength.symm)
    obtain ⟨m, hm⟩ := exists_draw (renormalised_pos.2 hv)
    refine ⟨⟨picks, fun _ _ => zeroRand, fun _ => firstPositive, fun _ => m⟩, ?_⟩
    intro r hr
    rw [hstep, ← hds, rejectionSample_all hvs, sample_one hs.temperature hs.topP] at hr
    obtain ⟨new, hnew, hr⟩ := (bind_ok _ _ _).1 hr
    have hbonus : m.draw (renormalised (probs torch cfg
        (target (rowText (s.targetKv ++ s.curInput) ++ vs)))) = v := hm
    rw [ok_bind, hbonus] at hnew
    rw [← Except.ok.inj hr, ← Except.ok.inj hnew]
    simp [NewTokens.toList, rowText, col, Function.comp_def]

theorem step_fails (hs : Steppable cfg numDraftTokens s) {vs : List (Token vocab)}
    (hvs : Acceptable (targetProbs torch cfg target s) (draftProbs torch cfg draft s) vs)
    (hlength : vs.length < numDraftTokens)
    (hfails : ResampleFails (targetProbs torch cfg target s vs) (draftProbs torch cfg draft s vs)) :
    ∃ draws : Draws 1 vocab K, ∀ r, generateStep torch ⟨target, some draft, numDraftTokens, cfg⟩ draws
      s.curInput s.targetKv s.draftKv ≠ .ok r := by
  obtain ⟨⟨d, hd, hless⟩, hnone⟩ := hfails
  have hsnocLength : (vs ++ [d]).length ≤ numDraftTokens := by
    rw [List.length_append, List.length_singleton]
    omega
  obtain ⟨picks, ds, kv, hinitial, _, hstep⟩ :=
    exists_step_row torch target hs (hvs.supported.snoc hd) hsnocLength
  obtain ⟨rest, rfl⟩ := hinitial
  obtain ⟨rand, hrand⟩ := rejectionSample_rejects torch cfg rest
    (p := targetProbs torch cfg target s)
    (fun l v => (nextProbs_distribution _ _ hs.topP _ l).nonneg v) hvs hless
  refine ⟨⟨picks, rand, fun _ => firstPositive, fun _ => firstPositive⟩, ?_⟩
  intro r hr
  rw [hstep, List.append_assoc, List.singleton_append, hrand] at hr
  obtain ⟨new, hnew, _⟩ := (bind_ok _ _ _).1 hr
  obtain ⟨resampled, hresampled, _⟩ := (bind_ok _ _ _).1 hnew
  have hpos := correctedProbs_pos.1 (multinomial_ok hresampled 0)
  exact not_lt.2 (hnone _) hpos

/-- The token that every draw of a step gives wherever greedy decoding still goes on is the greedy
one, and no draw fails. -/
structure Safe (torch : Torch vocab K) (cfg : SampleConfig K) (target draft : LanguageModel vocab K)
    (numDraftTokens : ℕ) (eosId : Option (Token vocab)) (maxNewTokens : ℕ) (s : State 1 vocab) :
    Prop where
  steppable : Steppable cfg numDraftTokens s
  greedy : ∀ vs v, Acceptable (targetProbs torch cfg target s) (draftProbs torch cfg draft s) vs →
    vs.length ≤ numDraftTokens → vs.length < maxNewTokens - s.totalNew → (∀ e ∈ eosId, e ∉ vs) →
    0 < targetProbs torch cfg target s vs v → v = greedySample (target (rowText s.generated ++ vs))
  resample : ∀ vs, Acceptable (targetProbs torch cfg target s) (draftProbs torch cfg draft s) vs →
    vs.length < numDraftTokens →
    ¬ResampleFails (targetProbs torch cfg target s vs) (draftProbs torch cfg draft s vs)

def StepAgrees (torch : Torch vocab K) (spec : SpeculativeDecoder vocab K)
    (eosId : Option (Token vocab)) (maxNewTokens : ℕ) (s : State 1 vocab) : Prop :=
  ∀ draws, ∃ r, generateStep torch spec draws s.curInput s.targetKv s.draftKv = .ok r ∧
    AgreeUpToShorter (rowText r.1.toList)
      (greedy spec.targetModel eosId (maxNewTokens - s.totalNew) (rowText s.generated))

def someDraws : Draws 1 vocab K :=
  ⟨fun _ _ => firstPositive, fun _ _ => zeroRand, fun _ => firstPositive, fun _ => firstPositive⟩

variable {eosId : Option (Token vocab)} {maxNewTokens : ℕ}

theorem safe_of_stepAgrees (h : StepAgrees torch ⟨target, some draft, numDraftTokens, cfg⟩ eosId
    maxNewTokens s) : Safe torch cfg target draft numDraftTokens eosId maxNewTokens s := by
  obtain ⟨r₀, hr₀, _⟩ := h someDraws
  have hs := steppable_of_ok hr₀
  refine ⟨hs, ?_, ?_⟩
  · intro vs v hvs hlength hleft heos hv
    obtain ⟨draws, hdraws⟩ := step_reaches hs hvs hlength hv
    obtain ⟨r, hr, hagree⟩ := h draws
    obtain ⟨suf, hsuf⟩ := hdraws r hr
    rw [← hsuf, List.append_assoc] at hagree
    have hgreedy := greedy_eq_append hagree.of_append hleft.le heos
    rw [hgreedy, agree_append_left] at hagree
    obtain ⟨k, hk⟩ := Nat.exists_eq_succ_of_ne_zero (Nat.sub_pos_of_lt hleft).ne'
    rw [hk, greedy] at hagree
    cases hagree with
    | inl hagree => exact (List.cons_prefix_cons.1 hagree).1
    | inr hagree => exact (List.cons_prefix_cons.1 hagree).1.symm
  · intro vs hvs hlength hfails
    obtain ⟨draws, hdraws⟩ := step_fails hs hvs hlength hfails
    obtain ⟨r, hr, _⟩ := h draws
    exact hdraws r hr

theorem stepAgrees_of_safe (h : Safe torch cfg target draft numDraftTokens eosId maxNewTokens s) :
    StepAgrees torch ⟨target, some draft, numDraftTokens, cfg⟩ eosId maxNewTokens s := by
  intro draws
  obtain ⟨r, hr⟩ := step_total target h.steppable h.resample draws
  obtain ⟨hlength, hdrafts, hlast⟩ := step_sound hr
  refine ⟨r, hr, agree_greedy_of_steps ?_⟩
  intro pre v suf hsplit hleft heos
  have htext : rowText r.1.toList = rowText r.1.drafts ++ [r.1.last 0] := by
    rw [NewTokens.toList, rowText, List.map_append]
    rfl
  rw [htext] at hsplit
  have hcount := congrArg List.length hsplit
  have hrow : (rowText r.1.drafts).length = r.1.drafts.length := List.length_map _
  simp only [List.length_append, List.length_cons, List.length_nil] at hcount
  cases suf.eq_nil_or_concat with
  | inl hnil =>
    -- the last token of the step
    rw [hnil] at hsplit
    obtain ⟨hpre, hv⟩ := List.append_inj' hsplit rfl
    rw [← hpre] at hleft heos ⊢
    rw [← (List.cons.inj hv).1]
    exact h.greedy _ _ hdrafts (hrow ▸ hlength) hleft heos hlast
  | inr hconcat =>
    -- an accepted draft
    obtain ⟨suf', w, rfl⟩ := hconcat
    have hinit : rowText r.1.drafts = pre ++ v :: suf' := by
      have hsnoc : pre ++ v :: suf'.concat w = (pre ++ v :: suf') ++ [w] := by simp
      rw [hsnoc] at hsplit
      exact (List.append_inj' hsplit rfl).1
    rw [hinit] at hdrafts
    obtain ⟨hpre, hv⟩ := hdrafts.split
    exact h.greedy pre v hpre (by omega) hleft heos hv

theorem safe_of_single (hs : Steppable cfg numDraftTokens s)
    (hcache : rowText (s.targetKv ++ s.curInput) = rowText s.generated)
    (hsingle : ∀ text v, 0 < probs torch cfg (target text) v → v = greedySample (target text)) :
    Safe torch cfg target draft numDraftTokens eosId maxNewTokens s := by
  have hgreedy : ∀ vs v, 0 < targetProbs torch cfg target s vs v →
      v = greedySample (target (rowText s.generated ++ vs)) := by
    intro vs v hv
    rw [← hcache]
    exact hsingle _ v hv
  refine ⟨hs, fun vs v _ _ _ _ hv => hgreedy vs v hv, ?_⟩
  intro vs _ _ hfails
  obtain ⟨⟨d, hd, hless⟩, hle⟩ := hfails
  have hp := nextProbs_distribution torch target hs.topP (rowText (s.targetKv ++ s.curInput)) vs
  have hq := nextProbs_distribution torch draft hs.topP (rowText (s.draftKv ++ s.curInput)) vs
  have hone : targetProbs torch cfg target s vs (greedySample (target (rowText s.generated ++ vs))) =
      1 := hp.eq_one (hgreedy vs)
  -- the draft gives the greedy token everything as well, so it proposes no other
  by_cases hproposed : d = greedySample (target (rowText s.generated ++ vs))
  · rw [hproposed, hone] at hless
    exact not_lt.2 (max_le (hq.le_one _) clampMin_le_one) hless
  · have hfull := hle (greedySample (target (rowText s.generated ++ vs)))
    rw [hone] at hfull
    have hrest := hq.pos_eq hfull hd
    exact hproposed hrest

theorem safe_start_topK_one (hs : Steppable cfg numDraftTokens s) (hk : cfg.topK = 1)
    (hstart : s = State.start s.generated)
    (hunique : ∀ text, ∃ m, ∀ v, v ≠ m → target text v < target text m) :
    Safe torch cfg target draft numDraftTokens eosId maxNewTokens s := by
  apply safe_of_single hs
  · rw [hstart]
    rfl
  · intro text v hv
    obtain ⟨m, hm⟩ := hunique text
    rw [greedySample_eq hm]
    exact probs_topK_one hk hs.temperature hm hv

end States

/-! From steps to runs. -/

section Runs
variable {spec : SpeculativeDecoder vocab K} {eosId : Option (Token vocab)} {maxNewTokens : ℕ}
  {s s' : State 1 vocab}

def LoopAgrees (torch : Torch vocab K) (spec : SpeculativeDecoder vocab K)
    (eosId : Option (Token vocab)) (maxNewTokens : ℕ) (s : State 1 vocab) : Prop :=
  ∀ draws, ∃ s' new, loop torch spec eosId maxNewTokens draws s = .ok s' ∧
    s'.generated = s.generated ++ new ∧ AgreeUpToShorter (rowText new)
      (greedy spec.targetModel eosId (maxNewTokens - s.totalNew) (rowText s.generated))

omit [Field K] [IsStrictOrderedRing K] in
theorem agree_step_iff {r : StepResult 1 vocab} {new : List (Column 1 vocab)}
    (hagree : AgreeUpToShorter (rowText r.1.toList)
      (greedy spec.targetModel eosId (maxNewTokens - s.totalNew) (rowText s.generated)))
    (hfinished : ¬∀ b, (s.extend eosId r).finished b = true)
    (hleft : r.1.toList.length ≤ maxNewTokens - s.totalNew) :
    AgreeUpToShorter (rowText (r.1.toList ++ new))
        (greedy spec.targetModel eosId (maxNewTokens - s.totalNew) (rowText s.generated)) ↔
      AgreeUpToShorter (rowText new) (greedy spec.targetModel eosId
        (maxNewTokens - (s.extend eosId r).totalNew) (rowText (s.extend eosId r).generated)) := by
  have heos : ∀ e ∈ eosId, e ∉ rowText r.1.toList := by
    intro e he hmem
    apply hfinished
    intro b
    obtain ⟨c, hc, hce⟩ := List.mem_map.1 hmem
    rw [Subsingleton.elim b 0, State.extend, Option.mem_def.1 he]
    simp only [Option.any_some, Bool.or_eq_true, List.any_eq_true, beq_iff_eq]
    exact .inr ⟨c, hc, hce⟩
  have hcount : (rowText r.1.toList).length = r.1.toList.length := List.length_map _
  rw [greedy_eq_append hagree (hcount ▸ hleft) heos, rowText_append, agree_append_left, State.extend,
    rowText_append, hcount, Nat.sub_sub]

omit [IsStrictOrderedRing K] in
theorem loopAgrees_of_steps (hsteps : ∀ t, Relation.ReflTransGen
      (Iteration torch spec eosId maxNewTokens) s t → t.totalNew < maxNewTokens →
      StepAgrees torch spec eosId maxNewTokens t) : LoopAgrees torch spec eosId maxNewTokens s := by
  induction hleft : maxNewTokens - s.totalNew using Nat.strongRecOn generalizing s with
  | ind left ih =>
    subst hleft
    intro draws
    rw [loop]
    by_cases hrunning : s.totalNew < maxNewTokens
    · obtain ⟨r, hr, hagree⟩ := hsteps s .refl hrunning (draws 0)
      rw [if_pos hrunning, hr]
      simp only []
      by_cases hfinished : ∀ b, (s.extend eosId r).finished b = true
      · rw [if_pos hfinished]
        exact ⟨_, r.1.toList, rfl, rfl, hagree⟩
      · rw [if_neg hfinished]
        have hiteration : Iteration torch spec eosId maxNewTokens s (s.extend eosId r) :=
          ⟨hrunning, draws 0, r, hr, rfl, hfinished⟩
        have htotal : (s.extend eosId r).totalNew = s.totalNew + r.1.toList.length := rfl
        have hpos : 0 < r.1.toList.length := by
          rw [NewTokens.toList, List.length_append]
          exact Nat.lt_add_left _ Nat.one_pos
        by_cases hroom : r.1.toList.length ≤ maxNewTokens - s.totalNew
        · obtain ⟨t, new, hloop, hgenerated, hrest⟩ := ih
            (maxNewTokens - (s.extend eosId r).totalNew) (by omega)
            (fun t ht => hsteps t (.head hiteration ht)) rfl (fun i => draws (i + 1))
          refine ⟨t, r.1.toList ++ new, hloop, ?_, ?_⟩
          · rw [hgenerated, State.extend, List.append_assoc]
          · exact (agree_step_iff hagree hfinished hroom).2 hrest
        · refine ⟨s.extend eosId r, r.1.toList, ?_, rfl, hagree⟩
          rw [loop, if_neg]
          omega
    · rw [if_neg hrunning]
      exact ⟨s, [], rfl, (List.append_nil _).symm, .inl List.nil_prefix⟩

theorem stepAgrees_of_loop (h : LoopAgrees torch spec eosId maxNewTokens s)
    (hrunning : s.totalNew < maxNewTokens) : StepAgrees torch spec eosId maxNewTokens s := by
  intro draws
  obtain ⟨t, new, hloop, hgenerated, hagree⟩ := h (prepend draws (fun _ => someDraws))
  rw [loop, if_pos hrunning, prepend_zero] at hloop
  cases hstep : generateStep torch spec draws s.curInput s.targetKv s.draftKv with
  | error e =>
    rw [hstep] at hloop
    cases hloop
  | ok r =>
    have hextends : ∃ more, t.generated = s.generated ++ (r.1.toList ++ more) := by
      rw [hstep] at hloop
      simp only [] at hloop
      split at hloop
      · rw [← Except.ok.inj hloop]
        exact ⟨[], by rw [List.append_nil]; rfl⟩
      · obtain ⟨more, hmore⟩ := loop_extends hloop
        exact ⟨more, by rw [hmore, State.extend, List.append_assoc]⟩
    obtain ⟨more, hmore⟩ := hextends
    rw [List.append_cancel_left (hgenerated.symm.trans hmore), rowText_append] at hagree
    exact ⟨r, rfl, hagree.of_append⟩

omit [IsStrictOrderedRing K] in
theorem loopAgrees_iteration (h : LoopAgrees torch spec eosId maxNewTokens s)
    (hiteration : Iteration torch spec eosId maxNewTokens s s') :
    LoopAgrees torch spec eosId maxNewTokens s' := by
  obtain ⟨hrunning, draws, r, hr, rfl, hfinished⟩ := hiteration
  intro draws'
  obtain ⟨t, new, hloop, hgenerated, hagree⟩ := h (prepend draws draws')
  rw [loop, if_pos hrunning, prepend_zero, hr] at hloop
  simp only [if_neg hfinished, prepend_succ] at hloop
  obtain ⟨more, hmore⟩ := loop_extends hloop
  have hnew : new = r.1.toList ++ more := by
    have hboth := hgenerated.symm.trans hmore
    rw [State.extend, List.append_assoc] at hboth
    exact List.append_cancel_left hboth
  refine ⟨t, more, hloop, hmore, ?_⟩
  rw [hnew] at hagree
  by_cases hroom : r.1.toList.length ≤ maxNewTokens - s.totalNew
  · have hstep : AgreeUpToShorter (rowText r.1.toList) (greedy spec.targetModel eosId
        (maxNewTokens - s.totalNew) (rowText s.generated)) := by
      rw [rowText_append] at hagree
      exact hagree.of_append
    exact (agree_step_iff hstep hfinished hroom).1 hagree
  · have hdone : maxNewTokens - (s.extend eosId r).totalNew = 0 := by
      change maxNewTokens - (s.totalNew + r.1.toList.length) = 0
      omega
    rw [hdone]
    exact .inr List.nil_prefix

theorem loopAgrees_iff : LoopAgrees torch spec eosId maxNewTokens s ↔
    ∀ t, Relation.ReflTransGen (Iteration torch spec eosId maxNewTokens) s t →
      t.totalNew < maxNewTokens → StepAgrees torch spec eosId maxNewTokens t := by
  constructor
  · intro h t ht
    have hreached : LoopAgrees torch spec eosId maxNewTokens t := by
      induction ht with
      | refl => exact h
      | tail _ hiteration ih => exact loopAgrees_iteration ih hiteration
    exact stepAgrees_of_loop hreached
  · exact loopAgrees_of_steps

def Lossless (torch : Torch vocab K) (backend : Backend 1 vocab K) (target : LanguageModel vocab K)
    (req : Request 1 vocab K) : Prop :=
  ∀ draws, ∃ out, backend.generate torch draws { req with doSample := false } = .ok out ∧
    AgreeUpToShorter (rowText (out.drop req.inputIds.length))
      (greedy target backend.eosId req.maxNewTokens (rowText req.inputIds))

omit [IsStrictOrderedRing K] in
theorem lossless_iff_loopAgrees (torch : Torch vocab K) (spec : SpeculativeDecoder vocab K)
    (eosId : Option (Token vocab))
    (modelGenerate : Request 1 vocab K → Except (SampleError K) (List (Column 1 vocab)))
    (req : Request 1 vocab K) :
    Lossless torch ⟨some spec, eosId, modelGenerate⟩ spec.targetModel req ↔
      LoopAgrees torch { spec with sampling := req.sampling } eosId req.maxNewTokens
        (State.start req.inputIds) := by
  constructor
  · intro h draws
    obtain ⟨out, hout, hagree⟩ := h draws
    obtain ⟨t, ht, hout⟩ := (bind_ok _ _ _).1 hout
    obtain ⟨new, hnew⟩ := loop_extends ht
    refine ⟨t, new, ht, hnew, ?_⟩
    have hdrop : out.drop req.inputIds.length = new := by
      rw [← Except.ok.inj hout, hnew]
      exact List.drop_left
    rwa [hdrop] at hagree
  · intro h draws
    obtain ⟨t, new, ht, hnew, hagree⟩ := h draws
    refine ⟨t.generated, (bind_ok _ _ _).2 ⟨t, ht, rfl⟩, ?_⟩
    have hdrop : t.generated.drop req.inputIds.length = new := by
      rw [hnew]
      exact List.drop_left
    rwa [hdrop]

theorem lossless_iff_safe (torch : Torch vocab K) (target draft : LanguageModel vocab K)
    (numDraftTokens : ℕ) (sampling : SampleConfig K) (eosId : Option (Token vocab))
    (modelGenerate : Request 1 vocab K → Except (SampleError K) (List (Column 1 vocab)))
    (req : Request 1 vocab K) :
    Lossless torch ⟨some ⟨target, some draft, numDraftTokens, sampling⟩, eosId, modelGenerate⟩ target
        req ↔
      ∀ s, Reached torch ⟨target, some draft, numDraftTokens, req.sampling⟩ eosId req.maxNewTokens
          req.inputIds s → s.totalNew < req.maxNewTokens →
        Safe torch req.sampling target draft numDraftTokens eosId req.maxNewTokens s := by
  rw [lossless_iff_loopAgrees torch ⟨target, some draft, numDraftTokens, sampling⟩, loopAgrees_iff]
  constructor
  · intro h s hs hrunning
    exact safe_of_stepAgrees (h s hs hrunning)
  · intro h s hs hrunning
    exact stepAgrees_of_safe (h s hs hrunning)

end Runs

end OneRow

/-- Speculative decoding gives what greedy decoding gives exactly if every state in which it makes a
step is safe. -/
theorem lossless_iff (torch : Torch (vocab + 1) ℝ) (target draft : LanguageModel (vocab + 1) ℝ)
    (numDraftTokens : ℕ) (sampling : SampleConfig ℝ) (eosId : Option (Token (vocab + 1)))
    (modelGenerate : Request 1 (vocab + 1) ℝ →
      Except (SampleError ℝ) (List (Column 1 (vocab + 1))))
    (req : Request 1 (vocab + 1) ℝ) :
    Lossless torch ⟨some ⟨target, some draft, numDraftTokens, sampling⟩, eosId, modelGenerate⟩ target
        req ↔
      ∀ s, Reached torch ⟨target, some draft, numDraftTokens, req.sampling⟩ eosId req.maxNewTokens
          req.inputIds s → s.totalNew < req.maxNewTokens →
        Safe torch req.sampling target draft numDraftTokens eosId req.maxNewTokens s :=
  lossless_iff_safe torch target draft numDraftTokens sampling eosId modelGenerate req

noncomputable def realTorch : Torch 2 ℝ := ⟨Real.exp, Real.exp_pos, stableSort⟩

noncomputable def secondLikelier : LanguageModel 2 ℝ := fun _ v => if v = Fin.last 1 then 1 else 0

noncomputable def plainRequest : Request 1 2 ℝ := ⟨[fun _ => Fin.last 1], 1, ⟨1, 0, 1⟩, false⟩

theorem sampled_not_greedy : ¬Lossless realTorch
    ⟨some ⟨secondLikelier, some secondLikelier, 1, ⟨1, 0, 1⟩⟩, none, fun _ => .ok []⟩
    secondLikelier plainRequest := by
  intro h
  have hsafe := (lossless_iff_safe _ _ _ _ _ _ _ _).1 h (State.start plainRequest.inputIds) .refl
    Nat.one_pos
  have hpos : 0 < targetProbs realTorch plainRequest.sampling secondLikelier
      (State.start plainRequest.inputIds) [] 0 := by
    apply softmax_pos.2
    simp [filters, plainRequest]
  have hzero := hsafe.greedy [] 0 trivial (Nat.zero_le 1) Nat.one_pos (fun _ he => by cases he) hpos
  have hone : ∀ text, greedySample (secondLikelier text) = 1 := by
    intro text
    apply greedySample_eq
    intro v hv
    simp [secondLikelier, hv]
  rw [hone] at hzero
  exact absurd hzero (by decide)

end Slakshna.Speculative

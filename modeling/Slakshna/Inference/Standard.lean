import Slakshna.Inference.Budget

/-! The loop of `_generate_speculative` without a draft model. The cache and the input together are the
text, so each token is drawn for the target's logits after all of it: plain sampling. -/
namespace Slakshna.Speculative
open Fallible Rejection Sampling
variable {batch vocab : ℕ} {K : Type} [Field K] [LinearOrder K]

def sampleText (torch : Torch vocab K) (cfg : SampleConfig K) (model : LanguageModel vocab K)
    (eosId : Option (Token vocab)) : ℕ → (ℕ → Fin batch → Multinomial (Token vocab) K) →
    (Fin batch → Bool) → List (Column batch vocab) →
    Except (SampleError K) (List (Column batch vocab))
  | 0, _, _, text => .ok text
  | n + 1, picks, finished, text => do
    let tok ← sampleFromLogits torch cfg (picks 0) (fun b => model (rowOf b text))
    let finished := fun b => finished b || eosId.any (fun eos => tok b == eos)
    if ∀ b, finished b = true then return text ++ [tok]
    else sampleText torch cfg model eosId n (fun i => picks (i + 1)) finished (text ++ [tok])

structure InStep (s : State batch vocab) : Prop where
  input : s.curInput ≠ []
  text : s.targetKv ++ s.curInput = s.generated

section Loop
variable {torch : Torch vocab K} {target : LanguageModel vocab K} {numDraftTokens : ℕ}
  {sampling : SampleConfig K} {eosId : Option (Token vocab)} {maxNewTokens : ℕ}

theorem standardStep_eq (draws : Draws batch vocab K) {s : State batch vocab} (hs : InStep s) :
    generateStep torch ⟨target, none, numDraftTokens, sampling⟩ draws s.curInput s.targetKv
        s.draftKv =
      (sampleFromLogits torch sampling draws.next (fun b => target (rowOf b s.generated))).map
        (fun tok => (⟨[], tok⟩, s.generated, [])) := by
  have hlast := lastLogits_rows target hs.input s.targetKv
  have hkv : (target.call s.curInput s.targetKv).2 = s.generated := hs.text
  rw [hs.text] at hlast
  simp only [generateStep, standardStep, hlast, ok_bind, hkv]
  cases sampleFromLogits torch sampling draws.next (fun b => target (rowOf b s.generated)) <;> rfl

theorem loop_eq_sampleText (draws : ℕ → Draws batch vocab K) {s : State batch vocab}
    (hs : InStep s) :
    (loop torch ⟨target, none, numDraftTokens, sampling⟩ eosId maxNewTokens draws s).map
        State.generated =
      sampleText torch sampling target eosId (maxNewTokens - s.totalNew)
        (fun i => (draws i).next) s.finished s.generated := by
  induction hleft : maxNewTokens - s.totalNew generalizing s draws with
  | zero =>
    rw [loop, if_neg (by omega)]
    rfl
  | succ n ih =>
    rw [loop, if_pos (by omega), standardStep_eq (draws 0) hs, sampleText]
    cases htok : sampleFromLogits torch sampling (draws 0).next
        (fun b => target (rowOf b s.generated)) with
    | error e => rfl
    | ok tok =>
      let r : StepResult batch vocab := (⟨[], tok⟩, s.generated, [])
      have hfinished : ∀ b, (s.extend eosId r).finished b =
          (s.finished b || eosId.any (fun eos => tok b == eos)) := by
        intro b
        simp [State.extend, r, NewTokens.toList]
      have hnext : InStep (s.extend eosId r) := by
        refine ⟨List.cons_ne_nil _ _, ?_⟩
        simp [State.extend, r, NewTokens.toList]
      have htotal : maxNewTokens - (s.extend eosId r).totalNew = n := by
        simp only [State.extend, r, NewTokens.toList, List.nil_append, List.length_singleton]
        omega
      have htext : (s.extend eosId r).generated = s.generated ++ [tok] := rfl
      have hrest := ih (fun i => draws (i + 1)) hnext htotal
      rw [funext hfinished, htext] at hrest
      change (if ∀ b, (s.extend eosId r).finished b = true then .ok (s.extend eosId r)
        else loop torch ⟨target, none, numDraftTokens, sampling⟩ eosId maxNewTokens
          (fun i => draws (i + 1)) (s.extend eosId r)).map State.generated =
        if ∀ b, (s.finished b || eosId.any (fun eos => tok b == eos)) = true
        then .ok (s.generated ++ [tok])
        else sampleText torch sampling target eosId n (fun i => (draws (i + 1)).next)
          (fun b => s.finished b || eosId.any (fun eos => tok b == eos)) (s.generated ++ [tok])
      simp only [hfinished]
      split
      · rfl
      · exact hrest

end Loop

def Ended (eosId : Option (Token vocab)) (finished : Fin batch → Bool)
    (new : List (Column batch vocab)) : Prop :=
  ∀ b, finished b = true ∨ ∃ eos ∈ eosId, eos ∈ rowOf b new

/-- What plain sampling adds to a text: each token is drawn from the distribution that the model has
after all tokens before it, and the first with which all rows have ended is the last. -/
structure Plain (torch : Torch vocab K) (cfg : SampleConfig K) (model : LanguageModel vocab K)
    (eosId : Option (Token vocab)) (maxNewTokens : ℕ) (finished : Fin batch → Bool)
    (text new : List (Column batch vocab)) : Prop where
  length : new.length ≤ maxNewTokens
  likely : ∀ pre c suf, new = pre ++ c :: suf →
    ∀ b, 0 < probs torch cfg (model (rowOf b (text ++ pre))) (c b)
  early : new.length < maxNewTokens → Ended eosId finished new
  first : ∀ pre suf, new = pre ++ suf → pre ≠ [] → suf ≠ [] → ¬Ended eosId finished pre

omit [Field K] [LinearOrder K] in
theorem ended_cons (eosId : Option (Token vocab)) (finished : Fin batch → Bool)
    (tok : Column batch vocab) (new : List (Column batch vocab)) :
    Ended eosId finished (tok :: new) ↔
      Ended eosId (fun b => finished b || eosId.any (fun eos => tok b == eos)) new := by
  refine forall_congr' (fun b => ?_)
  rw [Bool.or_eq_true, or_assoc]
  refine or_congr_right ?_
  cases eosId with
  | none => simp
  | some eos => simp [rowOf, @eq_comm _ eos (tok b)]

section Sampled
variable [IsStrictOrderedRing K] [NeZero vocab] {torch : Torch vocab K} {cfg : SampleConfig K}
  {model : LanguageModel vocab K} {eosId : Option (Token vocab)}

theorem sample_drawn (ht : 0 < cfg.temperature) (hp : 0 ≤ cfg.topP)
    (pick : Fin batch → Multinomial (Token vocab) K) (logits : Logits batch vocab K) :
    ∃ tok, sampleFromLogits torch cfg pick logits = .ok tok ∧
      ∀ b, 0 < probs torch cfg (logits b) (tok b) := by
  rw [sampleFromLogits_eq ht, multinomial, if_pos]
  · refine ⟨_, rfl, fun b => ?_⟩
    have hpos : ∃ v, 0 < probs torch cfg (logits b) v := (probs_distribution hp (logits b)).exists_pos
    exact renormalised_pos.1 ((pick b).draw_pos _ (hpos.imp (fun v => renormalised_pos.2)))
  · exact fun b => (probs_distribution hp (logits b)).exists_pos.imp (fun v => renormalised_pos.2)

theorem sampleText_plain (ht : 0 < cfg.temperature) (hp : 0 ≤ cfg.topP) (n : ℕ)
    (picks : ℕ → Fin batch → Multinomial (Token vocab) K) (finished : Fin batch → Bool)
    (text : List (Column batch vocab)) :
    ∃ new, sampleText torch cfg model eosId n picks finished text = .ok (text ++ new) ∧
      Plain torch cfg model eosId n finished text new := by
  induction n generalizing picks finished text with
  | zero =>
    refine ⟨[], by rw [sampleText, List.append_nil], le_refl 0, by simp, by simp, ?_⟩
    intro pre suf hsplit hpre
    exact absurd (List.append_eq_nil_iff.1 hsplit.symm).1 hpre
  | succ n ih =>
    obtain ⟨tok, htok, hdrawn⟩ : ∃ tok, sampleFromLogits torch cfg (picks 0)
        (fun b => model (rowOf b text)) = .ok tok ∧
        ∀ b, 0 < probs torch cfg (model (rowOf b text)) (tok b) :=
      sample_drawn ht hp (picks 0) (fun b => model (rowOf b text))
    have hhead : ∀ (pre : List (Column batch vocab)) c suf rest, tok :: rest = pre ++ c :: suf →
        (pre = [] ∧ tok = c) ∨ ∃ pre', pre = tok :: pre' ∧ rest = pre' ++ c :: suf := by
      intro pre c suf rest hsplit
      cases pre with
      | nil => exact .inl ⟨rfl, (List.cons.inj hsplit).1⟩
      | cons p pre' =>
        obtain ⟨rfl, hrest⟩ := List.cons.inj hsplit
        exact .inr ⟨pre', rfl, hrest⟩
    by_cases hall : ∀ b, (finished b || eosId.any (fun eos => tok b == eos)) = true
    · refine ⟨[tok], ?_, Nat.succ_le_succ (Nat.zero_le n), ?_, ?_, ?_⟩
      · rw [sampleText, htok, ok_bind]
        simp only [if_pos hall]
        rfl
      · intro pre c suf hsplit b
        obtain ⟨rfl, rfl⟩ | ⟨_, _, hnil⟩ := hhead pre c suf [] hsplit
        · rw [List.append_nil]
          exact hdrawn b
        · simp at hnil
      · intro _
        exact (ended_cons eosId finished tok []).2 (fun b => .inl (hall b))
      · intro pre suf hsplit hpre hsuf
        cases pre with
        | nil => exact absurd rfl hpre
        | cons p pre' =>
          have hnil := (List.append_eq_nil_iff.1 (List.cons.inj hsplit).2.symm).2
          exact absurd hnil hsuf
    · obtain ⟨rest, hrest, hplain⟩ := ih (fun i => picks (i + 1))
        (fun b => finished b || eosId.any (fun eos => tok b == eos)) (text ++ [tok])
      refine ⟨tok :: rest, ?_, Nat.succ_le_succ hplain.length, ?_, ?_, ?_⟩
      · rw [sampleText, htok, ok_bind]
        simp only [if_neg hall]
        rw [hrest, List.append_assoc]
        rfl
      · intro pre c suf hsplit b
        obtain ⟨rfl, rfl⟩ | ⟨pre', rfl, htail⟩ := hhead pre c suf rest hsplit
        · rw [List.append_nil]
          exact hdrawn b
        · have hlater := hplain.likely pre' c suf htail b
          rwa [List.append_assoc] at hlater
      · intro hless
        exact (ended_cons eosId finished tok rest).2
          (hplain.early (Nat.lt_of_succ_lt_succ hless))
      · intro pre suf hsplit hpre hsuf
        cases pre with
        | nil => exact absurd rfl hpre
        | cons p pre' =>
          obtain ⟨rfl, htail⟩ := List.cons.inj hsplit
          rw [ended_cons]
          cases pre' with
          | nil =>
            intro hended
            exact hall (fun b => (hended b).resolve_right (by simp [rowOf]))
          | cons q pre'' => exact hplain.first (q :: pre'') suf htail (List.cons_ne_nil _ _) hsuf

end Sampled

/-- Without a draft model the loop is plain sampling from the target, whose cache never falls out of
step with the text; it always returns, keeps to the budget, and stops at the first token with which
all rows have ended. -/
theorem standard_plain [IsStrictOrderedRing K] [NeZero vocab] (torch : Torch vocab K)
    (target : LanguageModel vocab K) (numDraftTokens : ℕ) (before sampling : SampleConfig K)
    (ht : 0 < sampling.temperature) (hp : 0 ≤ sampling.topP) (eosId : Option (Token vocab))
    (draws : ℕ → Draws batch vocab K) (inputIds : List (Column batch vocab)) (hinput : inputIds ≠ [])
    (maxNewTokens : ℕ) :
    let result := generateSpeculative torch ⟨target, none, numDraftTokens, before⟩ eosId draws
      inputIds maxNewTokens sampling
    result = sampleText torch sampling target eosId maxNewTokens (fun i => (draws i).next)
      (fun _ => false) inputIds ∧
    ∃ new, result = .ok (inputIds ++ new) ∧
      Plain torch sampling target eosId maxNewTokens (fun _ => false) inputIds new := by
  intro result
  have hstart : InStep (State.start inputIds) := ⟨hinput, rfl⟩
  have hloop : result = sampleText torch sampling target eosId maxNewTokens
      (fun i => (draws i).next) (fun _ => false) inputIds := by
    have hloop : (loop torch ⟨target, none, numDraftTokens, sampling⟩ eosId maxNewTokens draws
        (State.start inputIds)).map State.generated = sampleText torch sampling target eosId
          (maxNewTokens - 0) (fun i => (draws i).next) (fun _ => false) inputIds :=
      loop_eq_sampleText draws hstart
    rw [Nat.sub_zero] at hloop
    exact hloop
  refine ⟨hloop, ?_⟩
  rw [hloop]
  exact sampleText_plain ht hp maxNewTokens _ _ inputIds

theorem standard_plain_flat :
    ∃ new, generateSpeculative flatTorch ⟨fun _ _ => 0, none, 1, ⟨1, 0, 1⟩⟩ (some 0)
        (fun _ => firstDraws) flatStart 3 ⟨1, 0, 1⟩ = .ok (flatStart ++ new) ∧
      Plain flatTorch ⟨1, 0, 1⟩ (fun _ _ => 0) (some 0) 3 (fun _ => false) flatStart new :=
  (standard_plain flatTorch (fun _ _ => 0) 1 ⟨1, 0, 1⟩ ⟨1, 0, 1⟩ one_pos zero_le_one (some 0)
    (fun _ => firstDraws) flatStart (List.cons_ne_nil _ _) 3).2

end Slakshna.Speculative

import Slakshna.Inference.Round

/-! How many tokens speculative decoding returns, and what follows the end of a row. The loop looks at
its budget and at the ends of the rows between two blocks only. -/
namespace Slakshna.Speculative
open Fallible Sampling
variable {batch vocab : ℕ} {K : Type}

def Padded (eos : Token vocab) (row : List (Token vocab)) : Prop :=
  row.Pairwise (fun u v => u = eos → v = eos)

/-- The new tokens keep to the budget, and no row goes on after its end. -/
structure Trimmed (eosId : Option (Token vocab)) (maxNewTokens : ℕ)
    (new : List (Column batch vocab)) : Prop where
  length : new.length ≤ maxNewTokens
  padded : ∀ eos ∈ eosId, ∀ b, Padded eos (rowOf b new)

/-- There is room for a block, and in no row anything but `eos` comes after an `eos` of the block or of
a block before. -/
structure BlockFits (eosId : Option (Token vocab)) (maxNewTokens : ℕ) (s : State batch vocab)
    (new : NewTokens batch vocab) : Prop where
  room : new.drafts.length < maxNewTokens - s.totalNew
  padded : ∀ eos ∈ eosId, ∀ b, Padded eos (rowOf b new.toList)
  finished : ∀ eos ∈ eosId, ∀ b, s.finished b = true → ∀ v ∈ rowOf b new.toList, v = eos

structure Counted (eosId : Option (Token vocab)) (s : State batch vocab)
    (new : List (Column batch vocab)) : Prop where
  total : s.totalNew = new.length
  finished : ∀ b, s.finished b = true ↔ ∃ eos ∈ eosId, eos ∈ rowOf b new

theorem Trimmed.of_append {eosId : Option (Token vocab)} {maxNewTokens : ℕ}
    {xs ys : List (Column batch vocab)} (h : Trimmed eosId maxNewTokens (xs ++ ys)) :
    Trimmed eosId maxNewTokens xs where
  length := by
    have hlength := h.length
    rw [List.length_append] at hlength
    omega
  padded := by
    intro eos heos b
    have hpadded := h.padded eos heos b
    rw [rowOf_append] at hpadded
    exact (List.pairwise_append.1 hpadded).1

section Step
variable {eosId : Option (Token vocab)} {maxNewTokens : ℕ} {s : State batch vocab}
  {r : StepResult batch vocab} {new : List (Column batch vocab)}

theorem counted_start (inputIds : List (Column batch vocab)) :
    Counted eosId (State.start inputIds) [] where
  total := rfl
  finished := by simp [State.start, rowOf]

theorem Counted.extend (h : Counted eosId s new) :
    Counted eosId (s.extend eosId r) (new ++ r.1.toList) where
  total := by rw [State.extend, List.length_append, h.total]
  finished := by
    intro b
    rw [rowOf_append, State.extend, Bool.or_eq_true, h.finished]
    cases eosId with
    | none => simp
    | some eos => simp [rowOf]

theorem trimmed_append_iff (h : Counted eosId s new) (hnew : Trimmed eosId maxNewTokens new) :
    Trimmed eosId maxNewTokens (new ++ r.1.toList) ↔
      BlockFits eosId maxNewTokens s r.1 := by
  have hlength : (new ++ r.1.toList).length = s.totalNew + (r.1.drafts.length + 1) := by
    rw [List.length_append, NewTokens.toList, List.length_append, List.length_singleton, h.total]
  constructor
  · intro hall
    have hroom := hall.length
    refine ⟨by omega, ?_, ?_⟩
    · intro eos heos b
      have hpadded := hall.padded eos heos b
      rw [rowOf_append] at hpadded
      exact (List.pairwise_append.1 hpadded).2.1
    · intro eos heos b hfinished v hv
      have hpadded := hall.padded eos heos b
      rw [rowOf_append] at hpadded
      obtain ⟨eos', heos', hmem⟩ := (h.finished b).1 hfinished
      rw [Option.mem_unique heos' heos] at hmem
      exact (List.pairwise_append.1 hpadded).2.2 eos hmem v hv rfl
  · intro hfits
    have hroom := hfits.room
    refine ⟨by omega, ?_⟩
    intro eos heos b
    rw [rowOf_append]
    refine List.pairwise_append.2 ⟨hnew.padded eos heos b, hfits.padded eos heos b, ?_⟩
    intro u hu v hv hueos
    rw [hueos] at hu
    exact hfits.finished eos heos b ((h.finished b).2 ⟨eos, heos, hu⟩) v hv

end Step

variable [Field K] [LinearOrder K] {torch : Torch vocab K} {spec : SpeculativeDecoder vocab K}
  {eosId : Option (Token vocab)} {maxNewTokens : ℕ}

/-- The states in which the loop with these draws makes a step, each with the draws of that step. -/
inductive Makes (torch : Torch vocab K) (spec : SpeculativeDecoder vocab K)
    (eosId : Option (Token vocab)) (maxNewTokens : ℕ) :
    (ℕ → Draws batch vocab K) → State batch vocab → Draws batch vocab K → State batch vocab → Prop
  | here {draws : ℕ → Draws batch vocab K} {s : State batch vocab}
      (running : s.totalNew < maxNewTokens) : Makes torch spec eosId maxNewTokens draws s (draws 0) s
  | later {draws : ℕ → Draws batch vocab K} {s t : State batch vocab} {r : StepResult batch vocab}
      {d : Draws batch vocab K} (running : s.totalNew < maxNewTokens)
      (step : generateStep torch spec (draws 0) s.curInput s.targetKv s.draftKv = .ok r)
      (unfinished : ¬∀ b, (s.extend eosId r).finished b = true)
      (rest : Makes torch spec eosId maxNewTokens (fun i => draws (i + 1)) (s.extend eosId r) d t) :
      Makes torch spec eosId maxNewTokens draws s d t

def AllFit (torch : Torch vocab K) (spec : SpeculativeDecoder vocab K)
    (eosId : Option (Token vocab)) (maxNewTokens : ℕ) (draws : ℕ → Draws batch vocab K)
    (s : State batch vocab) : Prop :=
  ∀ d t, Makes torch spec eosId maxNewTokens draws s d t →
    ∃ r, generateStep torch spec d t.curInput t.targetKv t.draftKv = .ok r ∧
      BlockFits eosId maxNewTokens t r.1

section Run
variable {draws : ℕ → Draws batch vocab K} {s : State batch vocab} {r : StepResult batch vocab}

theorem allFit_stopped (hstopped : ¬s.totalNew < maxNewTokens) :
    AllFit torch spec eosId maxNewTokens draws s := by
  intro d t ht
  cases ht with
  | here hrunning => exact absurd hrunning hstopped
  | later hrunning => exact absurd hrunning hstopped

theorem allFit_iff (hrunning : s.totalNew < maxNewTokens)
    (hr : generateStep torch spec (draws 0) s.curInput s.targetKv s.draftKv = .ok r) :
    AllFit torch spec eosId maxNewTokens draws s ↔ BlockFits eosId maxNewTokens s r.1 ∧
      ((¬∀ b, (s.extend eosId r).finished b = true) →
        AllFit torch spec eosId maxNewTokens (fun i => draws (i + 1)) (s.extend eosId r)) := by
  constructor
  · intro h
    constructor
    · obtain ⟨r', hr', hfits⟩ := h _ _ (.here hrunning)
      rw [hr] at hr'
      rwa [Except.ok.inj hr']
    · intro hunfinished d t ht
      exact h d t (.later hrunning hr hunfinished ht)
  · intro h d t ht
    cases ht with
    | here => exact ⟨r, hr, h.1⟩
    | later _ hr' hunfinished hrest =>
      rw [hr] at hr'
      rw [← Except.ok.inj hr'] at hunfinished hrest
      exact h.2 hunfinished d t hrest

def EndsTrimmed (torch : Torch vocab K) (spec : SpeculativeDecoder vocab K)
    (eosId : Option (Token vocab)) (maxNewTokens : ℕ) (draws : ℕ → Draws batch vocab K)
    (s : State batch vocab) (new : List (Column batch vocab)) : Prop :=
  ∃ s' more, loop torch spec eosId maxNewTokens draws s = .ok s' ∧
    s'.generated = s.generated ++ more ∧ Trimmed eosId maxNewTokens (new ++ more)

theorem endsTrimmed_step {new : List (Column batch vocab)} (hrunning : s.totalNew < maxNewTokens)
    (hr : generateStep torch spec (draws 0) s.curInput s.targetKv s.draftKv = .ok r) :
    EndsTrimmed torch spec eosId maxNewTokens draws s new ↔
      Trimmed eosId maxNewTokens (new ++ r.1.toList) ∧
        ((¬∀ b, (s.extend eosId r).finished b = true) → EndsTrimmed torch spec eosId maxNewTokens
          (fun i => draws (i + 1)) (s.extend eosId r) (new ++ r.1.toList)) := by
  have hextend : (s.extend eosId r).generated = s.generated ++ r.1.toList := rfl
  rw [EndsTrimmed, loop, if_pos hrunning, hr]
  by_cases hfinished : ∀ b, (s.extend eosId r).finished b = true
  · simp only [if_pos hfinished]
    constructor
    · intro h
      obtain ⟨s', more, hs', hgenerated, htrimmed⟩ := h
      rw [← Except.ok.inj hs', hextend] at hgenerated
      rw [List.append_cancel_left hgenerated]
      exact ⟨htrimmed, fun hnot => absurd hfinished hnot⟩
    · intro h
      exact ⟨_, r.1.toList, rfl, rfl, h.1⟩
  · simp only [if_neg hfinished]
    constructor
    · intro h
      obtain ⟨s', more, hs', hgenerated, htrimmed⟩ := h
      obtain ⟨rest, hrest⟩ := loop_extends hs'
      rw [hrest, hextend, List.append_assoc] at hgenerated
      rw [← List.append_cancel_left hgenerated, ← List.append_assoc] at htrimmed
      exact ⟨htrimmed.of_append, fun _ => ⟨s', rest, hs', hrest, htrimmed⟩⟩
    · intro h
      obtain ⟨s', more, hs', hgenerated, htrimmed⟩ := h.2 hfinished
      refine ⟨s', r.1.toList ++ more, hs', ?_, ?_⟩
      · rw [hgenerated, hextend, List.append_assoc]
      · rwa [← List.append_assoc]

theorem endsTrimmed_iff {new : List (Column batch vocab)} (hcounted : Counted eosId s new)
    (hnew : Trimmed eosId maxNewTokens new) :
    EndsTrimmed torch spec eosId maxNewTokens draws s new ↔
      AllFit torch spec eosId maxNewTokens draws s := by
  induction hleft : maxNewTokens - s.totalNew using Nat.strongRecOn generalizing s new draws with
  | ind left ih =>
    by_cases hrunning : s.totalNew < maxNewTokens
    · cases hr : generateStep torch spec (draws 0) s.curInput s.targetKv s.draftKv with
      | error e =>
        refine iff_of_false ?_ ?_
        · intro h
          obtain ⟨s', more, hs', _⟩ := h
          rw [loop, if_pos hrunning, hr] at hs'
          cases hs'
        · intro h
          obtain ⟨r, hok, _⟩ := h _ _ (.here hrunning)
          rw [hr] at hok
          cases hok
      | ok r =>
        rw [endsTrimmed_step hrunning hr, allFit_iff hrunning hr, trimmed_append_iff hcounted hnew]
        refine and_congr_right (fun hfits => imp_congr_right (fun _ => ?_))
        have hless : maxNewTokens - (s.extend eosId r).totalNew < left := by
          rw [State.extend_totalNew]
          omega
        exact ih _ hless hcounted.extend ((trimmed_append_iff hcounted hnew).2 hfits) rfl
    · refine iff_of_true ?_ (allFit_stopped hrunning)
      exact ⟨s, [], by rw [loop, if_neg hrunning], by rw [List.append_nil], by rwa [List.append_nil]⟩

end Run

section Round
variable {r : Round batch vocab K}

/-- One of the first `room` drafts is rejected by some row, if there are as many; no row has anything
but `eos` behind one that all rows accept; and a row that has ended gets nothing else. -/
structure Round.Fits (r : Round batch vocab K) (eosId : Option (Token vocab)) (room : ℕ)
    (finished : Fin batch → Bool) : Prop where
  runs : r.Runs
  room : r.numDraftTokens < room ∨
    ∃ i < room, i < r.numDraftTokens ∧ ∃ b, r.accepts i b = false
  drafts : ∀ eos ∈ eosId, ∀ b j, j < r.accepted → ∀ i < j,
    r.draftToken i b = eos → r.draftToken j b = eos
  closing : ∀ eos ∈ eosId, ∀ b, ∀ i < r.accepted, r.draftToken i b = eos → r.closing b = eos
  finished : ∀ eos ∈ eosId, ∀ b, finished b = true →
    (∀ i < r.accepted, r.draftToken i b = eos) ∧ r.closing b = eos

theorem Round.rowOf_block (b : Fin batch) :
    rowOf b (NewTokens.toList ⟨r.drafts r.accepted, r.closing⟩) =
      (List.range r.accepted).map (fun i => r.draftToken i b) ++ [r.closing b] := by
  rw [NewTokens.toList, rowOf_append, Round.drafts_eq, rowOf, List.map_map]
  rfl

theorem Round.padded_block_iff (eos : Token vocab) (b : Fin batch) :
    Padded eos (rowOf b (NewTokens.toList ⟨r.drafts r.accepted, r.closing⟩)) ↔
      (∀ j, j < r.accepted → ∀ i < j, r.draftToken i b = eos → r.draftToken j b = eos) ∧
        ∀ i < r.accepted, r.draftToken i b = eos → r.closing b = eos := by
  rw [Round.rowOf_block, Padded, List.pairwise_append, List.pairwise_iff_getElem]
  refine and_congr ?_ ?_
  · simp only [List.length_map, List.length_range, List.getElem_map, List.getElem_range]
    exact ⟨fun h j hj i hi => h i j (hi.trans hj) hj hi, fun h i j _ hj hi => h j hj i hi⟩
  · simp

theorem Round.blockFits_iff {s : State batch vocab} (hruns : r.Runs) :
    BlockFits eosId maxNewTokens s ⟨r.drafts r.accepted, r.closing⟩ ↔
      r.Fits eosId (maxNewTokens - s.totalNew) s.finished := by
  have hlength : (r.drafts r.accepted).length = r.accepted := by
    rw [Round.drafts_eq, List.length_map, List.length_range]
  have hroom : r.accepted < maxNewTokens - s.totalNew ↔ _ :=
    Round.acceptedFrom_lt_iff 0 r.numDraftTokens (maxNewTokens - s.totalNew)
  simp only [Nat.zero_add] at hroom
  have hrow : ∀ b eos, (∀ v ∈ rowOf b (NewTokens.toList ⟨r.drafts r.accepted, r.closing⟩), v = eos) ↔
      (∀ i < r.accepted, r.draftToken i b = eos) ∧ r.closing b = eos := by
    intro b eos
    rw [Round.rowOf_block]
    simp [or_imp, forall_and]
  constructor
  · rintro ⟨hspace, hpadded, hfinished⟩
    refine ⟨hruns, hroom.1 (hlength.symm.trans_lt hspace), ?_, ?_, ?_⟩
    · exact fun eos heos b => ((Round.padded_block_iff eos b).1 (hpadded eos heos b)).1
    · exact fun eos heos b => ((Round.padded_block_iff eos b).1 (hpadded eos heos b)).2
    · exact fun eos heos b hb => (hrow b eos).1 (hfinished eos heos b hb)
  · intro h
    refine ⟨hlength.trans_lt (hroom.2 h.room), ?_, ?_⟩
    · exact fun eos heos b => (Round.padded_block_iff eos b).2 ⟨h.drafts eos heos b,
        h.closing eos heos b⟩
    · exact fun eos heos b hb => (hrow b eos).2 (h.finished eos heos b hb)

end Round

def State.round (torch : Torch vocab K) (target draft : LanguageModel vocab K) (numDraftTokens : ℕ)
    (sampling : SampleConfig K) (draws : Draws batch vocab K) (s : State batch vocab) :
    Round batch vocab K :=
  ⟨torch, sampling, target, draft, numDraftTokens, draws, s.curInput, s.targetKv, s.draftKv⟩

variable [IsStrictOrderedRing K]

theorem round_fits_iff {target draft : LanguageModel vocab K} {numDraftTokens : ℕ}
    {sampling : SampleConfig K} {draws : Draws batch vocab K} {s : State batch vocab} :
    (∃ r, generateStep torch ⟨target, some draft, numDraftTokens, sampling⟩ draws s.curInput
        s.targetKv s.draftKv = .ok r ∧ BlockFits eosId maxNewTokens s r.1) ↔
      (s.round torch target draft numDraftTokens sampling draws).Fits eosId
        (maxNewTokens - s.totalNew) s.finished := by
  have hstep := fun new => @Round.step_iff batch vocab K _ _
    (s.round torch target draft numDraftTokens sampling draws) _ new
  constructor
  · rintro ⟨⟨new, kvs⟩, hr, hfits⟩
    obtain ⟨hruns, rfl⟩ := (hstep new).1 ⟨kvs, hr⟩
    exact (Round.blockFits_iff hruns).1 hfits
  · intro h
    obtain ⟨kvs, hr⟩ := (hstep _).2 ⟨h.runs, rfl⟩
    exact ⟨_, hr, (Round.blockFits_iff h.runs).2 h⟩

/-- The call returns the prompts and new tokens that keep to the budget and to the ends of the rows
exactly if in each of its steps the draws keep the drafts within the budget and behind no `eos`. -/
theorem generateSpeculative_trimmed_iff (torch : Torch vocab K)
    (target draft : LanguageModel vocab K) (numDraftTokens : ℕ) (eosId : Option (Token vocab))
    (draws : ℕ → Draws batch vocab K) (inputIds : List (Column batch vocab)) (maxNewTokens : ℕ)
    (before sampling : SampleConfig K) :
    (∃ new, generateSpeculative torch ⟨target, some draft, numDraftTokens, before⟩ eosId draws
        inputIds maxNewTokens sampling = .ok (inputIds ++ new) ∧ Trimmed eosId maxNewTokens new) ↔
      ∀ d t, Makes torch ⟨target, some draft, numDraftTokens, sampling⟩ eosId maxNewTokens draws
          (State.start inputIds) d t →
        (t.round torch target draft numDraftTokens sampling d).Fits eosId
          (maxNewTokens - t.totalNew) t.finished := by
  have hempty : Trimmed eosId maxNewTokens ([] : List (Column batch vocab)) :=
    ⟨Nat.zero_le _, fun _ _ _ => List.Pairwise.nil⟩
  simp only [← round_fits_iff]
  refine Iff.trans ?_ (endsTrimmed_iff (counted_start inputIds) hempty)
  constructor
  · intro h
    obtain ⟨new, hnew, htrimmed⟩ := h
    obtain ⟨s', hs', hgenerated⟩ := (bind_ok _ _ _).1 hnew
    exact ⟨s', new, hs', Except.ok.inj hgenerated, htrimmed⟩
  · intro h
    obtain ⟨s', new, hs', hgenerated, htrimmed⟩ := h
    exact ⟨new, (bind_ok _ _ _).2 ⟨s', hs', congrArg Except.ok hgenerated⟩, htrimmed⟩

/-- One new token was asked for; the draft is accepted and the bonus token follows. -/
theorem flat_over_budget :
    generateSpeculative flatTorch flatDecoder none (fun _ => firstDraws) flatStart 1 ⟨1, 0, 1⟩ =
      .ok (flatStart ++ [fun _ => 0, fun _ => 0]) ∧
    ¬Trimmed none 1 [(fun _ => 0 : Column 1 2), fun _ => 0] := by
  constructor
  · rw [generateSpeculative, loop]
    decide +kernel
  · intro h
    exact absurd h.length (by decide)

theorem flat_trimmed_iff :
    (∃ new, generateSpeculative flatTorch flatDecoder none (fun _ => firstDraws) flatStart 1
        ⟨1, 0, 1⟩ = .ok (flatStart ++ new) ∧ Trimmed none 1 new) ↔
      ∀ d t, Makes flatTorch flatDecoder none 1 (fun _ => firstDraws) (State.start flatStart) d t →
        (t.round flatTorch (fun _ _ => 0) (fun _ _ => 0) 1 ⟨1, 0, 1⟩ d).Fits none (1 - t.totalNew)
          t.finished :=
  generateSpeculative_trimmed_iff flatTorch (fun _ _ => 0) (fun _ _ => 0) 1 none
    (fun _ => firstDraws) flatStart 1 ⟨1, 0, 1⟩ ⟨1, 0, 1⟩

end Slakshna.Speculative

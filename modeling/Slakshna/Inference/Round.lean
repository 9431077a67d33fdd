import Slakshna.Inference.Speculative

/-! One step of speculative decoding as the models and the draws decide it: what the draft model proposes,
how much of that every row accepts, and which token closes the block. -/
namespace Slakshna.Speculative
open Fallible Rejection Sampling
variable {batch vocab : ℕ} {K : Type}

def rowOf (b : Fin batch) (cols : List (Column batch vocab)) : List (Token vocab) :=
  cols.map (fun c => c b)

theorem rowOf_append (b : Fin batch) (xs ys : List (Column batch vocab)) :
    rowOf b (xs ++ ys) = rowOf b xs ++ rowOf b ys := List.map_append

theorem lastLogits_rows (model : LanguageModel vocab K) {input : List (Column batch vocab)}
    (h : input ≠ []) (past : List (Column batch vocab)) :
    lastLogits (model.call input past).1 = .ok (fun b => model (rowOf b (past ++ input))) := by
  have hlength : input.length = (input.length - 1) + 1 := by
    have hpos := List.length_pos_iff.2 h
    omega
  have hlast : (model.call input past).1.getLast? =
      some (fun b => model (rowOf b (past ++ input))) := by
    rw [LanguageModel.call, hlength, List.range_succ, List.map_append, List.map_singleton,
      List.getLast?_concat, ← hlength, List.take_length]
    rfl
  rw [lastLogits, hlast]

theorem logits_rows (model : LanguageModel vocab K) {input : List (Column batch vocab)}
    (h : input ≠ []) (past more : List (Column batch vocab)) :
    let logits := (model.call (input ++ more) past).1
    logits.drop (logits.length - (more.length + 1)) =
      (List.range (more.length + 1)).map (fun i b =>
        model (rowOf b (past ++ input ++ more.take i))) := by
  have hpos := List.length_pos_iff.2 h
  apply List.ext_getElem
  · simp only [LanguageModel.call, List.length_drop, List.length_map, List.length_range,
      List.length_append]
    omega
  · intro i hi hi'
    have hindex : (input ++ more).length - (more.length + 1) + i + 1 = input.length + i := by
      rw [List.length_append]
      omega
    simp only [LanguageModel.call, List.getElem_drop, List.getElem_map, List.getElem_range,
      List.length_map, List.length_range, hindex, List.take_length_add_append, ← List.append_assoc]
    rfl

variable [Field K] [LinearOrder K]

def rowProbs (torch : Torch vocab K) (cfg : SampleConfig K) (model : LanguageModel vocab K)
    (text : List (Column batch vocab)) (b : Fin batch) : Token vocab → K :=
  probs torch cfg (model (rowOf b text))

/-- The models, the draws of a step, and the input and the caches it starts from. -/
structure Round (batch vocab : ℕ) (K : Type) [Field K] [LinearOrder K] where
  torch : Torch vocab K
  sampling : SampleConfig K
  target : LanguageModel vocab K
  draft : LanguageModel vocab K
  numDraftTokens : ℕ
  draws : Draws batch vocab K
  input : List (Column batch vocab)
  targetKv : List (Column batch vocab)
  draftKv : List (Column batch vocab)

namespace Round
variable (r : Round batch vocab K)

def drafts : ℕ → List (Column batch vocab)
  | 0 => []
  | i + 1 => drafts i ++ [fun b => (r.draws.draft i b).draw
      (renormalised (rowProbs r.torch r.sampling r.draft (r.draftKv ++ r.input ++ drafts i) b))]

def draftProbs (i : ℕ) (b : Fin batch) : Token vocab → K :=
  rowProbs r.torch r.sampling r.draft (r.draftKv ++ r.input ++ r.drafts i) b

def draftToken (i : ℕ) : Column batch vocab :=
  fun b => (r.draws.draft i b).draw (renormalised (r.draftProbs i b))

def targetProbs (i : ℕ) (b : Fin batch) : Token vocab → K :=
  rowProbs r.torch r.sampling r.target (r.targetKv ++ r.input ++ r.drafts i) b

def accepts (i : ℕ) (b : Fin batch) : Bool :=
  accept (r.draws.rand i b) (r.targetProbs i b) (r.draftProbs i b) (r.draftToken i b)

/-- How many of the `n` drafts from the `i`-th on every row accepts in a row. -/
def acceptedFrom : ℕ → ℕ → ℕ
  | _, 0 => 0
  | i, n + 1 => if ∀ b, r.accepts i b = true then acceptedFrom (i + 1) n + 1 else 0

def accepted : ℕ := r.acceptedFrom 0 r.numDraftTokens

def replacement (i : ℕ) : Column batch vocab := fun b =>
  if r.accepts i b then r.draftToken i b
  else (r.draws.resample b).draw (correctedProbs (r.targetProbs i b) (r.draftProbs i b))

def bonus : Column batch vocab := fun b =>
  (r.draws.next b).draw (renormalised (r.targetProbs r.numDraftTokens b))

def closing : Column batch vocab :=
  if r.accepted < r.numDraftTokens then r.replacement r.accepted else r.bonus

/-- Every draw that is made has something to draw from. At a rejection that is asked of the rows that
accept as well. -/
structure Runs : Prop where
  temperature : 0 < r.sampling.temperature
  drafted : 0 < r.numDraftTokens
  input : r.input ≠ []
  proposals : ∀ i < r.numDraftTokens, ∀ b, ∃ v, 0 < r.draftProbs i b v
  replacement : r.accepted < r.numDraftTokens →
    ∀ b, ∃ v, r.draftProbs r.accepted b v < r.targetProbs r.accepted b v
  bonus : r.accepted = r.numDraftTokens → ∀ b, ∃ v, 0 < r.targetProbs r.numDraftTokens b v

section Spec
variable {r}

theorem drafts_eq (i : ℕ) : r.drafts i = (List.range i).map r.draftToken := by
  induction i with
  | zero => rfl
  | succ i ih =>
    rw [List.range_succ, List.map_append, ← ih]
    rfl

theorem acceptedFrom_lt_iff (i n room : ℕ) : r.acceptedFrom i n < room ↔
    n < room ∨ ∃ j < room, j < n ∧ ∃ b, r.accepts (i + j) b = false := by
  induction n generalizing i room with
  | zero => simp [acceptedFrom]
  | succ n ih =>
    cases room with
    | zero => simp
    | succ room =>
      rw [acceptedFrom]
      split
      · next hall =>
        rw [Nat.succ_lt_succ_iff, ih, Nat.succ_lt_succ_iff]
        refine or_congr_right ⟨?_, ?_⟩
        · rintro ⟨j, hj, hn, b, hb⟩
          refine ⟨j + 1, Nat.succ_lt_succ hj, Nat.succ_lt_succ hn, b, ?_⟩
          rwa [Nat.add_comm j 1, ← Nat.add_assoc]
        · rintro ⟨j, hj, hn, b, hb⟩
          cases j with
          | zero =>
            rw [Nat.add_zero, hall b] at hb
            cases hb
          | succ j =>
            refine ⟨j, Nat.lt_of_succ_lt_succ hj, Nat.lt_of_succ_lt_succ hn, b, ?_⟩
            rwa [Nat.add_assoc, Nat.add_comm 1 j]
      · next hall =>
        refine iff_of_true (Nat.succ_pos room) (.inr ⟨0, Nat.succ_pos room, Nat.succ_pos n, ?_⟩)
        obtain ⟨b, hb⟩ := not_forall.1 hall
        exact ⟨b, Bool.eq_false_of_not_eq_true hb⟩

variable (r) in
def proposed (i : ℕ) : Draft batch vocab K := ⟨r.draftToken i, r.draftProbs i⟩

variable [IsStrictOrderedRing K]

theorem draftLoop_iff (ht : 0 < r.sampling.temperature) {i n : ℕ}
    {curInput pastKv : List (Column batch vocab)} (hcur : curInput ≠ [])
    (htext : pastKv ++ curInput = r.draftKv ++ r.input ++ r.drafts i)
    {ds : List (Draft batch vocab K)} :
    (∃ kv, draftLoop r.torch r.sampling r.draft n (fun j => r.draws.draft (i + j)) curInput pastKv =
      .ok (ds, kv)) ↔
      (∀ j, i ≤ j → j < i + n → ∀ b, ∃ v, 0 < r.draftProbs j b v) ∧
        ds = (List.range' i n).map r.proposed := by
  induction n generalizing i curInput pastKv ds with
  | zero =>
    constructor
    · rintro ⟨kv, h⟩
      obtain ⟨rfl, -⟩ := Prod.mk.inj (Except.ok.inj h)
      exact ⟨fun j hle hlt => absurd hlt (by omega), rfl⟩
    · rintro ⟨-, rfl⟩
      exact ⟨pastKv, rfl⟩
  | succ n ih =>
    have hprobs : ∀ b, probs r.torch r.sampling (r.draft (rowOf b (pastKv ++ curInput))) =
        r.draftProbs i b := by
      intro b
      rw [htext]
      rfl
    have hnext : (pastKv ++ curInput) ++ [r.draftToken i] =
        r.draftKv ++ r.input ++ r.drafts (i + 1) := by
      rw [htext, List.append_assoc]
      rfl
    have hpicks : (fun j => r.draws.draft (i + (j + 1))) = fun j => r.draws.draft (i + 1 + j) := by
      funext j
      rw [Nat.add_right_comm, Nat.add_assoc]
    have hrest := @ih (i + 1) [r.draftToken i] (pastKv ++ curInput) (List.cons_ne_nil _ _) hnext
    rw [draftLoop]
    simp only [lastLogits_rows r.draft hcur, logitsToProbs_eq ht, ok_bind, hpicks, hprobs]
    constructor
    · rintro ⟨kv, h⟩
      obtain ⟨tok, htok, h⟩ := (bind_ok _ _ _).1 h
      obtain ⟨hpos, rfl⟩ := (sampleFromLogits_eq_ok_iff ht).1 htok
      simp only [hprobs] at hpos h
      obtain ⟨⟨rest, kv'⟩, hloop, h⟩ := (bind_ok _ _ _).1 h
      obtain ⟨rfl, rfl⟩ := Prod.mk.inj (Except.ok.inj h)
      obtain ⟨hlater, rfl⟩ := hrest.1 ⟨kv', hloop⟩
      refine ⟨?_, by rw [List.range'_succ]; rfl⟩
      intro j hle hlt
      cases Nat.eq_or_lt_of_le hle with
      | inl heq => exact heq ▸ hpos
      | inr hless => exact hlater j hless (by omega)
    · rintro ⟨hall, rfl⟩
      obtain ⟨kv, hloop⟩ := hrest.2 ⟨fun j hle hlt => hall j (by omega) (by omega), rfl⟩
      have hpos := hall i (le_refl i) (by omega)
      refine ⟨kv, (bind_ok _ _ _).2 ⟨r.draftToken i, (sampleFromLogits_eq_ok_iff ht).2 ⟨?_, ?_⟩, ?_⟩⟩
      · simpa only [hprobs] using hpos
      · simp only [hprobs]
        rfl
      · refine (bind_ok _ _ _).2 ⟨_, hloop, ?_⟩
        rw [List.range'_succ]
        rfl

theorem rejectionSample_iff (ht : 0 < r.sampling.temperature) {i n : ℕ}
    (hn : i + n = r.numDraftTokens) {bonusLogits : Logits batch vocab K}
    (hbonus : ∀ b, probs r.torch r.sampling (bonusLogits b) = r.targetProbs r.numDraftTokens b)
    {new : NewTokens batch vocab} :
    rejectionSample r.torch r.sampling r.draws.resample r.draws.next (fun j => r.draws.rand (i + j))
        ((List.range' i n).map (fun j => (r.proposed j, r.targetProbs j))) bonusLogits = .ok new ↔
      (r.acceptedFrom i n < n → ∀ b, ∃ v, r.draftProbs (i + r.acceptedFrom i n) b v <
        r.targetProbs (i + r.acceptedFrom i n) b v) ∧
      (r.acceptedFrom i n = n → ∀ b, ∃ v, 0 < r.targetProbs r.numDraftTokens b v) ∧
      new = ⟨(List.range' i (r.acceptedFrom i n)).map r.draftToken,
        if r.acceptedFrom i n < n then r.replacement (i + r.acceptedFrom i n) else r.bonus⟩ := by
  induction n generalizing i new with
  | zero =>
    rw [List.range'_zero, List.map_nil, rejectionSample]
    constructor
    · intro h
      obtain ⟨tok, htok, h⟩ := (bind_ok _ _ _).1 h
      obtain ⟨hpos, rfl⟩ := (sampleFromLogits_eq_ok_iff ht).1 htok
      simp only [hbonus] at hpos h
      exact ⟨fun hlt => absurd hlt (Nat.lt_irrefl 0), fun _ => hpos, (Except.ok.inj h).symm⟩
    · rintro ⟨-, hpos, rfl⟩
      refine (bind_ok _ _ _).2 ⟨r.bonus, (sampleFromLogits_eq_ok_iff ht).2 ⟨?_, ?_⟩, rfl⟩
      · simpa only [hbonus] using hpos rfl
      · simp only [hbonus]
        rfl
  | succ n ih =>
    have hrand : (fun j => r.draws.rand (i + (j + 1))) = fun j => r.draws.rand (i + 1 + j) := by
      funext j
      rw [Nat.add_right_comm, Nat.add_assoc]
    have haccepts : ∀ b, accept (r.draws.rand (i + 0) b) (r.targetProbs i b)
        ((r.proposed i).probs b) ((r.proposed i).token b) = r.accepts i b := fun _ => rfl
    rw [List.range'_succ, List.map_cons, rejectionSample, acceptedFrom]
    simp only [haccepts, hrand]
    split
    · next hall =>
      have hindex : i + (r.acceptedFrom (i + 1) n + 1) = i + 1 + r.acceptedFrom (i + 1) n := by omega
      have hrest : i + 1 + n = r.numDraftTokens := by omega
      rw [hindex, List.range'_succ, List.map_cons]
      simp only [Nat.add_lt_add_iff_right, Nat.add_right_cancel_iff]
      constructor
      · intro h
        obtain ⟨new', hnew, h⟩ := (bind_ok _ _ _).1 h
        obtain ⟨hreplaced, hpos, rfl⟩ := (ih hrest).1 hnew
        exact ⟨hreplaced, hpos, (Except.ok.inj h).symm⟩
      · rintro ⟨hreplaced, hpos, rfl⟩
        exact (bind_ok _ _ _).2 ⟨_, (ih hrest).2 ⟨hreplaced, hpos, rfl⟩, rfl⟩
    · next hall =>
      constructor
      · intro h
        obtain ⟨tok, htok, h⟩ := (bind_ok _ _ _).1 h
        obtain ⟨hpos, rfl⟩ := multinomial_eq_ok_iff.1 htok
        simp only [correctedProbs_pos] at hpos
        exact ⟨fun _ => hpos, fun hzero => absurd hzero.symm (Nat.succ_ne_zero n),
          (Except.ok.inj h).symm⟩
      · rintro ⟨hpos, -, rfl⟩
        refine (bind_ok _ _ _).2 ⟨_, multinomial_eq_ok_iff.2 ⟨?_, rfl⟩, rfl⟩
        simp only [correctedProbs_pos]
        exact hpos (Nat.succ_pos n)

theorem draftLoop_needs {cfg : SampleConfig K} {torch : Torch vocab K}
    {model : LanguageModel vocab K} {n : ℕ} {picks : ℕ → Fin batch → Multinomial (Token vocab) K}
    {curInput pastKv : List (Column batch vocab)}
    {x : List (Draft batch vocab K) × List (Column batch vocab)} (hn : 0 < n)
    (h : draftLoop torch cfg model n picks curInput pastKv = .ok x) :
    0 < cfg.temperature ∧ curInput ≠ [] := by
  cases n with
  | zero => exact absurd hn (Nat.lt_irrefl 0)
  | succ n =>
    obtain ⟨logits, hlogits, h⟩ := (bind_ok _ _ _).1 h
    obtain ⟨weights, hweights, _⟩ := (bind_ok _ _ _).1 h
    constructor
    · by_contra hcold
      rw [logitsToProbs_error hcold] at hweights
      cases hweights
    · rintro rfl
      cases hlogits

omit [IsStrictOrderedRing K] in
theorem drafts_take {i n : ℕ} (hi : i ≤ n) : (r.drafts n).take i = r.drafts i := by
  rw [drafts_eq, drafts_eq, ← List.map_take, List.take_range, Nat.min_eq_left hi]

omit [IsStrictOrderedRing K] in
theorem draftGenerate_eq (hdrafted : 0 < r.numDraftTokens) {kv : List (Column batch vocab)}
    (hloop : draftLoop r.torch r.sampling r.draft r.numDraftTokens r.draws.draft r.input r.draftKv =
      .ok ((List.range r.numDraftTokens).map r.proposed, kv)) :
    draftGenerate r.torch ⟨r.target, some r.draft, r.numDraftTokens, r.sampling⟩ r.draft r.draws
      r.input r.draftKv = .ok ((List.range r.numDraftTokens).map r.proposed, kv) := by
  have hnonempty : ((List.range r.numDraftTokens).map r.proposed).isEmpty = false := by
    rw [List.isEmpty_eq_false_iff_exists_mem]
    exact ⟨r.proposed 0, List.mem_map_of_mem (List.mem_range.2 hdrafted)⟩
  rw [draftGenerate]
  simp only [hloop, ok_bind, hnonempty]
  rfl

theorem mapM_targetProbs (ht : 0 < r.sampling.temperature) (n : ℕ) :
    ((List.range (n + 1)).map (fun i b =>
      r.target (rowOf b (r.targetKv ++ r.input ++ (r.drafts n).take i)))).mapM
        (logitsToProbs r.torch r.sampling) = .ok ((List.range (n + 1)).map r.targetProbs) := by
  rw [mapM_ok (fun logits _ => logitsToProbs_eq ht), List.map_map]
  congr 1
  apply List.map_congr_left
  intro i hi
  funext b
  simp only [Function.comp_apply, drafts_take (Nat.lt_succ_iff.1 (List.mem_range.1 hi))]
  rfl

variable (r) in
theorem speculativeStep_eq (ht : 0 < r.sampling.temperature) (hdrafted : 0 < r.numDraftTokens)
    (hinput : r.input ≠ []) {kv : List (Column batch vocab)}
    (hloop : draftLoop r.torch r.sampling r.draft r.numDraftTokens r.draws.draft r.input r.draftKv =
      .ok ((List.range r.numDraftTokens).map r.proposed, kv)) :
    speculativeStep r.torch ⟨r.target, some r.draft, r.numDraftTokens, r.sampling⟩ r.draft r.draws
      r.input r.targetKv r.draftKv = (do
        let new ← rejectionSample r.torch r.sampling r.draws.resample r.draws.next r.draws.rand
          ((List.range r.numDraftTokens).map (fun j => (r.proposed j, r.targetProbs j)))
          (fun b => r.target (rowOf b (r.targetKv ++ r.input ++ r.drafts r.numDraftTokens)))
        return (new, r.targetKv ++ (r.input ++ r.drafts r.numDraftTokens), kv)) := by
  have htokens : ((List.range r.numDraftTokens).map r.proposed).map Draft.token =
      r.drafts r.numDraftTokens := by
    rw [drafts_eq, List.map_map]
    rfl
  have hlogits := logits_rows r.target hinput r.targetKv (r.drafts r.numDraftTokens)
  have hlength : (r.drafts r.numDraftTokens).length = r.numDraftTokens := by
    rw [drafts_eq, List.length_map, List.length_range]
  rw [hlength] at hlogits
  have hlast : lastLogits ((List.range (r.numDraftTokens + 1)).map (fun i b =>
      r.target (rowOf b (r.targetKv ++ r.input ++ (r.drafts r.numDraftTokens).take i)))) =
      .ok (fun b => r.target (rowOf b (r.targetKv ++ r.input ++ r.drafts r.numDraftTokens))) := by
    rw [lastLogits, List.range_succ, List.map_append, List.map_singleton, List.getLast?_concat,
      drafts_take (le_refl _)]
  have hpositions : ((List.range r.numDraftTokens).map r.proposed).zip
      ((List.range (r.numDraftTokens + 1)).map r.targetProbs).dropLast =
      (List.range r.numDraftTokens).map (fun j => (r.proposed j, r.targetProbs j)) := by
    rw [List.range_succ, List.map_append, List.map_singleton, List.dropLast_concat,
      List.zip_map']
  rw [speculativeStep, draftGenerate_eq hdrafted hloop]
  simp only [ok_bind, htokens, hlogits, mapM_targetProbs ht, hlast, hpositions]
  rfl

theorem draftLoop_start_iff (ht : 0 < r.sampling.temperature) (hinput : r.input ≠ [])
    {ds : List (Draft batch vocab K)} :
    (∃ kv, draftLoop r.torch r.sampling r.draft r.numDraftTokens r.draws.draft r.input r.draftKv =
      .ok (ds, kv)) ↔
      (∀ i < r.numDraftTokens, ∀ b, ∃ v, 0 < r.draftProbs i b v) ∧
        ds = (List.range r.numDraftTokens).map r.proposed := by
  have htext : r.draftKv ++ r.input = r.draftKv ++ r.input ++ r.drafts 0 :=
    (List.append_nil _).symm
  have hpicks : (fun j => r.draws.draft (0 + j)) = r.draws.draft :=
    funext (fun j => congrArg r.draws.draft (Nat.zero_add j))
  have hloop : (∃ kv, draftLoop r.torch r.sampling r.draft r.numDraftTokens
      (fun j => r.draws.draft (0 + j)) r.input r.draftKv = .ok (ds, kv)) ↔ _ :=
    draftLoop_iff ht hinput htext
  rw [hpicks] at hloop
  rw [hloop, List.range_eq_range']
  simp

theorem rejectionSample_start_iff (ht : 0 < r.sampling.temperature) {new : NewTokens batch vocab} :
    rejectionSample r.torch r.sampling r.draws.resample r.draws.next r.draws.rand
        ((List.range r.numDraftTokens).map (fun j => (r.proposed j, r.targetProbs j)))
        (fun b => r.target (rowOf b (r.targetKv ++ r.input ++ r.drafts r.numDraftTokens))) =
      .ok new ↔
      (r.accepted < r.numDraftTokens →
        ∀ b, ∃ v, r.draftProbs r.accepted b v < r.targetProbs r.accepted b v) ∧
      (r.accepted = r.numDraftTokens → ∀ b, ∃ v, 0 < r.targetProbs r.numDraftTokens b v) ∧
      new = ⟨r.drafts r.accepted, r.closing⟩ := by
  have hrand : (fun j => r.draws.rand (0 + j)) = r.draws.rand :=
    funext (fun j => congrArg r.draws.rand (Nat.zero_add j))
  have hblock : rejectionSample r.torch r.sampling r.draws.resample r.draws.next
      (fun j => r.draws.rand (0 + j))
      ((List.range' 0 r.numDraftTokens).map (fun j => (r.proposed j, r.targetProbs j)))
      (fun b => r.target (rowOf b (r.targetKv ++ r.input ++ r.drafts r.numDraftTokens))) =
      .ok new ↔ _ := rejectionSample_iff ht (Nat.zero_add r.numDraftTokens) (fun _ => rfl)
  rw [hrand, ← List.range_eq_range', Nat.zero_add, ← List.range_eq_range', ← drafts_eq] at hblock
  exact hblock

variable (r) in
theorem step_iff {new : NewTokens batch vocab} :
    (∃ kvs, generateStep r.torch ⟨r.target, some r.draft, r.numDraftTokens, r.sampling⟩ r.draws
        r.input r.targetKv r.draftKv = .ok (new, kvs)) ↔
      r.Runs ∧ new = ⟨r.drafts r.accepted, r.closing⟩ := by
  change (∃ kvs, speculativeStep r.torch ⟨r.target, some r.draft, r.numDraftTokens, r.sampling⟩
    r.draft r.draws r.input r.targetKv r.draftKv = .ok (new, kvs)) ↔ _
  constructor
  · rintro ⟨kvs, h⟩
    obtain ⟨⟨ds, kv⟩, hdrafts, _⟩ := (bind_ok _ _ _).1 h
    obtain ⟨hlength, hne, _⟩ := draftGenerate_ok hdrafts
    obtain ⟨⟨ds', kv'⟩, hds', _⟩ := (bind_ok _ _ _).1 hdrafts
    have hdrafted : 0 < r.numDraftTokens := (List.length_pos_iff.2 hne).trans_eq hlength
    obtain ⟨ht, hinput⟩ := draftLoop_needs hdrafted hds'
    obtain ⟨hproposals, rfl⟩ := (draftLoop_start_iff ht hinput).1 ⟨kv', hds'⟩
    rw [speculativeStep_eq r ht hdrafted hinput hds'] at h
    obtain ⟨new', hnew, h⟩ := (bind_ok _ _ _).1 h
    obtain ⟨rfl, -⟩ := Prod.mk.inj (Except.ok.inj h)
    obtain ⟨hreplaced, hpos, hnew⟩ := (rejectionSample_start_iff ht).1 hnew
    exact ⟨⟨ht, hdrafted, hinput, hproposals, hreplaced, hpos⟩, hnew⟩
  · rintro ⟨hruns, hnew⟩
    obtain ⟨kv, hds⟩ :=
      (draftLoop_start_iff hruns.temperature hruns.input).2 ⟨hruns.proposals, rfl⟩
    have hresult := (rejectionSample_start_iff hruns.temperature).2
      ⟨hruns.replacement, hruns.bonus, hnew⟩
    refine ⟨(r.targetKv ++ (r.input ++ r.drafts r.numDraftTokens), kv), ?_⟩
    rw [speculativeStep_eq r hruns.temperature hruns.drafted hruns.input hds]
    exact (bind_ok _ _ _).2 ⟨new, hresult, rfl⟩

end Spec

end Round

end Slakshna.Speculative

import Mathlib.Data.List.Infix

/-! Stop sequences of the HF backend. They are compared with the token ids that were generated, and
the streamer has each token before they are. Which token is next is decided from outside. -/
namespace Slakshna.HFGenerate

abbrev Text := List Char

structure Tokenizer where
  prompt : Text → List ℕ
  encode : Text → List ℕ
  decode : List ℕ → Text
  eosTokenId : ℕ

structure TextIteratorStreamer (tokenizer : Tokenizer) where
  chunks : List ℕ → List Text
  flatten_chunks : ∀ ids, (chunks ids).flatten = tokenizer.decode ids

structure GenerationParams where
  maxNewTokens : ℕ
  stopSequences : List Text

def stopOnStrings (stopIdsList : List (List ℕ)) (promptLen : ℕ) (inputIds : List ℕ) : Bool :=
  let generated := inputIds.drop promptLen
  stopIdsList.any (fun stopIds =>
    let n := stopIds.length
    n != 0 && generated.drop (generated.length - n) == stopIds)

def buildStoppingCriteria (tokenizer : Tokenizer) (stopSequences : List Text) (promptLen : ℕ) :
    Option (List ℕ → Bool) :=
  if stopSequences = [] then none
  else some (stopOnStrings (stopSequences.map tokenizer.encode) promptLen)

/-- The tokens that `model.generate` hands to its streamer: each is appended, handed over, and then
the criteria are evaluated. -/
def modelGenerate (next : List ℕ → ℕ) (criteria : Option (List ℕ → Bool)) (eosTokenId : ℕ) :
    ℕ → List ℕ → List ℕ
  | 0, _ => []
  | maxNewTokens + 1, inputIds =>
    let token := next inputIds
    let inputIds := inputIds ++ [token]
    if (criteria.any (fun stop => stop inputIds)) || token == eosTokenId then [token]
    else token :: modelGenerate next criteria eosTokenId maxNewTokens inputIds

def generated (tokenizer : Tokenizer) (next : List ℕ → ℕ) (prompt : Text)
    (params : GenerationParams) : List ℕ :=
  let inputIds := tokenizer.prompt prompt
  modelGenerate next
    (buildStoppingCriteria tokenizer params.stopSequences inputIds.length)
    tokenizer.eosTokenId params.maxNewTokens inputIds

/-- The texts that `HFEngineWrapper.generate` yields; empty ones are left out. -/
def generate (tokenizer : Tokenizer) (streamer : TextIteratorStreamer tokenizer)
    (next : List ℕ → ℕ) (prompt : Text) (params : GenerationParams) : List Text :=
  (streamer.chunks (generated tokenizer next prompt params)).filter (fun token => token ≠ [])

theorem drop_length_eq_iff (stopIds generated : List ℕ) :
    generated.drop (generated.length - stopIds.length) = stopIds ↔ stopIds <:+ generated := by
  constructor
  · intro h
    rw [← h]
    exact List.drop_suffix _ _
  · rintro ⟨before, rfl⟩
    rw [List.length_append, Nat.add_sub_cancel, List.drop_left]

theorem stopOnStrings_iff (stopIdsList : List (List ℕ)) (prompt generated : List ℕ) :
    stopOnStrings stopIdsList prompt.length (prompt ++ generated) = true ↔
      ∃ stopIds ∈ stopIdsList, stopIds ≠ [] ∧ stopIds <:+ generated := by
  rw [stopOnStrings, List.drop_left, List.any_eq_true]
  simp only [Bool.and_eq_true, bne_iff_ne, beq_iff_eq, drop_length_eq_iff, ne_eq,
    List.length_eq_zero_iff]

theorem criterion_iff {tokenizer : Tokenizer} {stopSequences : List Text} {prompt : List ℕ}
    {stop : List ℕ → Bool}
    (h : buildStoppingCriteria tokenizer stopSequences prompt.length = some stop)
    (generated : List ℕ) : stop (prompt ++ generated) = true ↔
      ∃ s ∈ stopSequences, tokenizer.encode s ≠ [] ∧ tokenizer.encode s <:+ generated := by
  rw [buildStoppingCriteria] at h
  split at h
  · cases h
  · cases h
    rw [stopOnStrings_iff]
    simp only [List.mem_map, exists_exists_and_eq_and]

theorem criteria_before_last {next : List ℕ → ℕ} {stop : List ℕ → Bool} {eosTokenId : ℕ}
    {maxNewTokens : ℕ} {inputIds q : List ℕ} {token : ℕ}
    (h : q ++ [token] <+: (modelGenerate next (some stop) eosTokenId maxNewTokens
      inputIds).dropLast) : stop (inputIds ++ (q ++ [token])) = false := by
  induction maxNewTokens generalizing inputIds q with
  | zero => simp [modelGenerate] at h
  | succ maxNewTokens ih =>
    rw [modelGenerate] at h
    split at h
    · simp at h
    · next hgoes =>
      have hstop : stop (inputIds ++ [next inputIds]) = false := by
        simp only [Option.any_some, Bool.or_eq_true, not_or, Bool.not_eq_true] at hgoes
        exact hgoes.1
      generalize hlater : modelGenerate next (some stop) eosTokenId maxNewTokens
        (inputIds ++ [next inputIds]) = later at h
      cases later with
      | nil => simp at h
      | cons second later =>
        rw [List.dropLast_cons_cons] at h
        cases q with
        | nil =>
          obtain ⟨rfl, -⟩ := List.cons_prefix_cons.1 h
          exact hstop
        | cons first q =>
          obtain ⟨rfl, hq⟩ := List.cons_prefix_cons.1 h
          rw [← hlater] at hq
          have hrest := ih hq
          simpa using hrest

theorem modelGenerate_ends (next : List ℕ → ℕ) (criteria : Option (List ℕ → Bool))
    (eosTokenId maxNewTokens : ℕ) (inputIds : List ℕ) :
    (modelGenerate next criteria eosTokenId maxNewTokens inputIds).length = maxNewTokens ∨
      (∃ stop ∈ criteria, stop (inputIds ++
        modelGenerate next criteria eosTokenId maxNewTokens inputIds) = true) ∨
      (modelGenerate next criteria eosTokenId maxNewTokens inputIds).getLast? =
        some eosTokenId := by
  induction maxNewTokens generalizing inputIds with
  | zero => exact Or.inl rfl
  | succ maxNewTokens ih =>
    rw [modelGenerate]
    split
    · next hhalts =>
      right
      cases Bool.or_eq_true_iff.1 hhalts with
      | inl hstop =>
        obtain ⟨stop, hcriteria, hstop⟩ := (Option.any_eq_true _ _).1 hstop
        exact Or.inl ⟨stop, hcriteria, hstop⟩
      | inr heos => exact Or.inr (by simpa using heos)
    · next hgoes =>
      rcases ih (inputIds ++ [next inputIds]) with hlength | ⟨stop, hcriteria, hstop⟩ | heos
      · left
        simp [hlength]
      · refine Or.inr (Or.inl ⟨stop, hcriteria, ?_⟩)
        simpa using hstop
      · right
        right
        rw [List.getLast?_cons, heos]
        rfl

/-- The text that is yielded is the decoding of the tokens up to the one that halts the generation.
No encoding of a stop sequence is complete before that token; and if neither the limit nor the end
token halts the generation, one is complete with it. -/
theorem generate_halts (tokenizer : Tokenizer) (streamer : TextIteratorStreamer tokenizer)
    (next : List ℕ → ℕ) (prompt : Text) (params : GenerationParams) :
    (generate tokenizer streamer next prompt params).flatten =
        tokenizer.decode (generated tokenizer next prompt params) ∧
      (∀ s ∈ params.stopSequences, tokenizer.encode s ≠ [] →
        ¬tokenizer.encode s <:+: (generated tokenizer next prompt params).dropLast) ∧
      ((generated tokenizer next prompt params).length = params.maxNewTokens ∨
        (∃ s ∈ params.stopSequences, tokenizer.encode s ≠ [] ∧
          tokenizer.encode s <:+ generated tokenizer next prompt params) ∨
        (generated tokenizer next prompt params).getLast? = some tokenizer.eosTokenId) := by
  refine ⟨?_, ?_, ?_⟩
  · rw [generate, List.flatten_filter_ne_nil, streamer.flatten_chunks]
  · intro s hs hne hinfix
    obtain ⟨stop, hstop⟩ : ∃ stop, buildStoppingCriteria tokenizer params.stopSequences
        (tokenizer.prompt prompt).length = some stop :=
      ⟨_, if_neg (List.ne_nil_of_mem hs)⟩
    obtain ⟨q, hsuffix, hfront⟩ := List.infix_iff_suffix_prefix.1 hinfix
    cases q using List.reverseRecOn with
    | nil => exact hne (List.suffix_nil.1 hsuffix)
    | append_singleton q token _ =>
      rw [generated, hstop] at hfront
      have hgoes := criteria_before_last hfront
      have hmet := (criterion_iff hstop (q ++ [token])).2 ⟨s, hs, hne, hsuffix⟩
      rw [hgoes] at hmet
      cases hmet
  · have hends := modelGenerate_ends next (buildStoppingCriteria tokenizer params.stopSequences
      (tokenizer.prompt prompt).length) tokenizer.eosTokenId params.maxNewTokens
      (tokenizer.prompt prompt)
    rcases hends with hlength | ⟨stop, hstop, hmet⟩ | heos
    · exact Or.inl hlength
    · exact Or.inr (Or.inl ((criterion_iff hstop _).1 hmet))
    · exact Or.inr (Or.inr heos)

def fiveTokens : Tokenizer where
  prompt := fun _ => []
  encode := fun s => if s = ['E', 'N', 'D'] then [2] else []
  decode := fun ids => ids.flatMap (fun id =>
    ([[], ['a'], ['E', 'N', 'D'], ['E', 'N'], ['D']][id]?).getD [])
  eosTokenId := 0

def fiveTokensStreamer : TextIteratorStreamer fiveTokens where
  chunks := fun ids => ids.map (fun id => fiveTokens.decode [id])
  flatten_chunks := by
    intro ids
    rw [← List.flatMap_def]
    apply List.flatMap_congr
    intro id _
    exact List.flatMap_singleton ..

/-- The stop text is yielded with the token that completes it; and in other tokens it is not noticed,
so that the generation goes on. -/
theorem stop_text_is_yielded :
    (generate fiveTokens fiveTokensStreamer (fun ids => if ids = [] then 1 else 2) []
        ⟨8, [['E', 'N', 'D']]⟩).flatten = ['a', 'E', 'N', 'D'] ∧
      (generate fiveTokens fiveTokensStreamer
        (fun ids => if ids = [] then 3 else if ids.length = 1 then 4 else 1) []
        ⟨4, [['E', 'N', 'D']]⟩).flatten = ['E', 'N', 'D', 'a', 'a'] := by
  decide +kernel

end Slakshna.HFGenerate

import Mathlib.Data.List.Basic
import Mathlib.Data.List.MinMax

/-! The batch that a thinking model is given: prompts of any lengths, padded on the left. The mask is
read off the token ids. -/
namespace Slakshna.Padding

structure Tokenizer (Prompt : Type) where
  padToken : Option ℕ
  eosToken : Option ℕ
  applyChatTemplate : Prompt → List ℕ

variable {Prompt : Type}

/-- What `_HFBackend.__init__` makes of a tokenizer: without a pad token it pads with the end token. -/
def backendTokenizer (tok : Tokenizer Prompt) : Tokenizer Prompt :=
  match tok.padToken with
  | none => { tok with padToken := tok.eosToken }
  | some _ => tok

inductive PadError where
  | emptyBatch
  | noPadId

/-- `self._tok.pad_token_id or self._tok.eos_token_id`: the id 0 is falsy. -/
def padId? (tok : Tokenizer Prompt) : Option ℕ :=
  match tok.padToken with
  | some (n + 1) => some (n + 1)
  | some 0 => tok.eosToken
  | none => tok.eosToken

structure Batch where
  inputIds : List (List ℕ)
  attentionMask : List (List ℕ)

def leftPad (maxLen padId : ℕ) (ids : List ℕ) : List ℕ :=
  List.replicate (maxLen - ids.length) padId ++ ids

/-- `(input_ids != pad_id).long()` -/
def maskOf (padId : ℕ) (ids : List ℕ) : List ℕ := ids.map (fun t => if t ≠ padId then 1 else 0)

def encodePrompts (tok : Tokenizer Prompt) (prompts : List Prompt) : Except PadError Batch :=
  let allIds := prompts.map tok.applyChatTemplate
  match (allIds.map List.length).max? with
  | none => .error .emptyBatch
  | some maxLen =>
    match padId? tok with
    | none => .error .noPadId
    | some padId =>
      let inputIds := allIds.map (leftPad maxLen padId)
      .ok ⟨inputIds, inputIds.map (maskOf padId)⟩

def lengthMask (maxLen : ℕ) (ids : List ℕ) : List ℕ :=
  List.replicate (maxLen - ids.length) 0 ++ List.replicate ids.length 1

def MasksPadding (allIds : List (List ℕ)) : Except PadError Batch → Prop
  | .error _ => False
  | .ok batch => ∃ maxLen, (allIds.map List.length).max? = some maxLen ∧
      batch.attentionMask = allIds.map (lengthMask maxLen)

theorem maskOf_eq_ones_iff {padId : ℕ} {ids : List ℕ} :
    maskOf padId ids = List.replicate ids.length 1 ↔ padId ∉ ids := by
  rw [List.eq_replicate_iff, maskOf, List.length_map]
  simp only [true_and, List.mem_map]
  constructor
  · intro h hmem
    have hone := h 0 ⟨padId, hmem, by simp⟩
    cases hone
  · rintro h _ ⟨t, ht, rfl⟩
    have hne : t ≠ padId := fun heq => h (heq ▸ ht)
    exact if_pos hne

theorem maskOf_leftPad_iff {maxLen padId : ℕ} {ids : List ℕ} :
    maskOf padId (leftPad maxLen padId ids) = lengthMask maxLen ids ↔ padId ∉ ids := by
  have hpadding : maskOf padId (leftPad maxLen padId ids) =
      List.replicate (maxLen - ids.length) 0 ++ maskOf padId ids := by
    simp [maskOf, leftPad]
  rw [hpadding, lengthMask, List.append_cancel_left_eq, maskOf_eq_ones_iff]

theorem applyChatTemplate_backendTokenizer (tok : Tokenizer Prompt) :
    (backendTokenizer tok).applyChatTemplate = tok.applyChatTemplate := by
  rw [backendTokenizer]
  split <;> rfl

/-- The mask is right exactly if there is a prompt, an id to pad with, and no prompt contains it. -/
theorem encodePrompts_masks_iff (tok : Tokenizer Prompt) (prompts : List Prompt) :
    MasksPadding (prompts.map tok.applyChatTemplate)
        (encodePrompts (backendTokenizer tok) prompts) ↔
      prompts ≠ [] ∧ ∃ padId, padId? (backendTokenizer tok) = some padId ∧
        ∀ p ∈ prompts, padId ∉ tok.applyChatTemplate p := by
  rw [encodePrompts, applyChatTemplate_backendTokenizer]
  generalize hids : prompts.map tok.applyChatTemplate = allIds
  have hempty : (allIds.map List.length).max? = none ↔ prompts = [] := by
    rw [List.max?_eq_none_iff, List.map_eq_nil_iff, ← hids, List.map_eq_nil_iff]
  cases hmax : (allIds.map List.length).max? with
  | none => simp [MasksPadding, hempty.1 hmax]
  | some maxLen =>
    have hne : prompts ≠ [] := by
      intro hnil
      rw [hempty.2 hnil] at hmax
      cases hmax
    cases hpad : padId? (backendTokenizer tok) with
    | none => simp [MasksPadding]
    | some padId =>
      have hrows : (allIds.map (leftPad maxLen padId)).map (maskOf padId) =
          allIds.map (lengthMask maxLen) ↔ ∀ ids ∈ allIds, padId ∉ ids := by
        rw [List.map_map, List.map_inj_left]
        simp only [Function.comp_apply, maskOf_leftPad_iff]
      have hprompts : (∀ ids ∈ allIds, padId ∉ ids) ↔
          ∀ p ∈ prompts, padId ∉ tok.applyChatTemplate p := by
        rw [← hids]
        exact List.forall_mem_map
      constructor
      · rintro ⟨m, hm, hmask⟩
        obtain rfl := Option.some.inj (hmax.symm.trans hm)
        exact ⟨hne, padId, rfl, hprompts.1 (hrows.1 hmask)⟩
      · rintro ⟨-, m, hm, hnone⟩
        obtain rfl := Option.some.inj hm
        exact ⟨maxLen, hmax, hrows.2 (hprompts.2 hnone)⟩

def endOfTurn : Tokenizer (List ℕ) := ⟨none, some 2, fun content => [1] ++ content ++ [2, 3]⟩

/-- The end of the turn is masked. -/
theorem endOfTurn_masked : ¬∀ prompts : List (List ℕ), prompts ≠ [] →
    MasksPadding (prompts.map endOfTurn.applyChatTemplate)
      (encodePrompts (backendTokenizer endOfTurn) prompts) := by
  intro h
  obtain ⟨maxLen, hmax, hmask⟩ := h [[5]] (by decide)
  obtain rfl : 4 = maxLen := Option.some.inj hmax
  exact absurd hmask (by decide)

end Slakshna.Padding

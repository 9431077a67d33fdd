import Mathlib.Algebra.Order.BigOperators.Group.List
import Slakshna.Data.CacheRuns

/-! The rows that the tokenizer actors hand on, and those of them that have no token. -/
namespace Slakshna.TokenCache
variable {Rec O : Type}

def Attended (row : TokenRow) : Prop := 1 ∈ row.attentionMask

instance : DecidablePred Attended := fun row => inferInstanceAs (Decidable (1 ∈ row.attentionMask))

/-- With `padding="max_length"` and truncation a text becomes `seq_len` tokens, of which the mask is
1 or 0. -/
structure PadsToLength (lib : Libraries Rec O) (r : Request Rec O) : Prop where
  ids : ∀ text, (lib.encode r.modelName r.seqLen text).1.length = r.seqLen
  mask : ∀ text, (lib.encode r.modelName r.seqLen text).2.length = r.seqLen
  binary : ∀ text, ∀ m ∈ (lib.encode r.modelName r.seqLen text).2, m = 0 ∨ m = 1

def tokenised (lib : Libraries Rec O) (r : Request Rec O) (batch : List Rec) : List TokenRow :=
  (texts lib r batch).map (tokenRow lib r)

def dummyRow (seqLen : ℕ) : TokenRow :=
  ⟨List.replicate seqLen 0, List.replicate seqLen 0, List.replicate seqLen (-100)⟩

def Labelled (seqLen : ℕ) (row : TokenRow) : Prop :=
  ∀ i < seqLen, ∃ id, row.inputIds[i]? = some id ∧
    (row.attentionMask[i]? = some 1 ∧ row.labels[i]? = some id ∨
      row.attentionMask[i]? = some 0 ∧ row.labels[i]? = some (-100))

theorem sum_pos_iff {mask : List ℤ} (h : ∀ m ∈ mask, m = 0 ∨ m = 1) :
    0 < mask.sum ↔ 1 ∈ mask := by
  induction mask with
  | nil => simp
  | cons m mask ih =>
    rw [List.forall_mem_cons] at h
    rw [List.sum_cons, List.mem_cons]
    have hrest := ih h.2
    have hnonneg : 0 ≤ mask.sum := by
      apply List.sum_nonneg
      intro x hx
      cases h.2 x hx with
      | inl hzero => exact hzero.ge
      | inr hone => omega
    cases h.1 with
    | inl hzero =>
      subst hzero
      simpa using hrest
    | inr hone =>
      subst hone
      exact iff_of_true (by omega) (Or.inl rfl)

theorem labelled_tokenRow {lib : Libraries Rec O} {r : Request Rec O} (h : PadsToLength lib r)
    (text : Text) : Labelled r.seqLen (tokenRow lib r text) := by
  intro i hi
  obtain ⟨id, hid⟩ : ∃ id, (lib.encode r.modelName r.seqLen text).1[i]? = some id :=
    ⟨_, List.getElem?_eq_getElem (hi.trans_eq (h.ids text).symm)⟩
  obtain ⟨m, hm⟩ : ∃ m, (lib.encode r.modelName r.seqLen text).2[i]? = some m :=
    ⟨_, List.getElem?_eq_getElem (hi.trans_eq (h.mask text).symm)⟩
  refine ⟨id, hid, ?_⟩
  cases h.binary text m (List.mem_of_getElem? hm) with
  | inl hzero =>
    right
    subst hzero
    exact ⟨hm, by simp [tokenRow, List.getElem?_zipWith, hid, hm]⟩
  | inr hone =>
    left
    subst hone
    exact ⟨hm, by simp [tokenRow, List.getElem?_zipWith, hid, hm]⟩

theorem labelled_dummyRow (seqLen : ℕ) : Labelled seqLen (dummyRow seqLen) := by
  intro i hi
  refine ⟨0, ?_, Or.inr ⟨?_, ?_⟩⟩
  · exact List.getElem?_replicate_of_lt hi
  · exact List.getElem?_replicate_of_lt hi
  · exact List.getElem?_replicate_of_lt hi

theorem filter_valid {lib : Libraries Rec O} {r : Request Rec O} (h : PadsToLength lib r)
    (batch : List Rec) : (tokenised lib r batch).filter
        (fun row => decide (0 < row.attentionMask.sum)) = (tokenised lib r batch).filter Attended := by
  apply List.filter_congr
  intro row hrow
  obtain ⟨text, -, rfl⟩ := List.mem_map.1 hrow
  exact decide_eq_decide.2 (sum_pos_iff (h.binary text))

theorem tokenizerActor_eq {lib : Libraries Rec O} {r : Request Rec O} (h : PadsToLength lib r)
    (batch : List Rec) : tokenizerActor lib r batch =
      if (tokenised lib r batch).filter Attended = [] then [dummyRow r.seqLen]
      else (tokenised lib r batch).filter Attended := by
  rw [← filter_valid h]
  rfl

theorem labelled_tokenizerActor {lib : Libraries Rec O} {r : Request Rec O}
    (h : PadsToLength lib r) (batch : List Rec) :
    ∀ row ∈ tokenizerActor lib r batch, Labelled r.seqLen row := by
  intro row hrow
  rw [tokenizerActor_eq h] at hrow
  split at hrow
  · rw [List.mem_singleton.1 hrow]
    exact labelled_dummyRow r.seqLen
  · obtain ⟨text, -, rfl⟩ := List.mem_map.1 (List.mem_filter.1 hrow).1
    exact labelled_tokenRow h text

/-- If a row of the batch has a token, those that have one are returned, in order; if none has, one
row of padding is. Every row that is returned has its labels. -/
theorem tokenizerActor_rows {lib : Libraries Rec O} {r : Request Rec O} (h : PadsToLength lib r)
    (batch : List Rec) :
    ((∃ row ∈ tokenised lib r batch, Attended row) →
      tokenizerActor lib r batch = (tokenised lib r batch).filter Attended ∧
        ∀ row ∈ tokenizerActor lib r batch, Attended row) ∧
    ((∀ row ∈ tokenised lib r batch, ¬Attended row) →
      tokenizerActor lib r batch = [dummyRow r.seqLen]) ∧
    ∀ row ∈ tokenizerActor lib r batch, Labelled r.seqLen row := by
  refine ⟨?_, ?_, labelled_tokenizerActor h batch⟩
  · rintro ⟨row, hrow, hattended⟩
    have hne : (tokenised lib r batch).filter Attended ≠ [] :=
      List.ne_nil_of_mem (List.mem_filter.2 ⟨hrow, decide_eq_true hattended⟩)
    have hrows : tokenizerActor lib r batch = (tokenised lib r batch).filter Attended := by
      rw [tokenizerActor_eq h, if_neg hne]
    refine ⟨hrows, ?_⟩
    intro kept hkept
    rw [hrows] at hkept
    exact of_decide_eq_true (List.mem_filter.1 hkept).2
  · intro hnone
    have hnil : (tokenised lib r batch).filter Attended = [] := by
      rw [List.filter_eq_nil_iff]
      intro row hrow
      simpa using hnone row hrow
    rw [tokenizerActor_eq h, if_pos hnil]

theorem filter_applyMapBatches {lib : Libraries Rec O} {r : Request Rec O}
    (h : PadsToLength lib r) : (applyMapBatches lib r).filter Attended =
      ((lib.batches r.raw).flatMap (tokenised lib r)).filter Attended := by
  have hdummy : ¬Attended (dummyRow r.seqLen) := by
    intro hone
    cases List.eq_of_mem_replicate hone
  rw [applyMapBatches, List.filter_flatMap, List.filter_flatMap]
  congr 1
  funext batch
  rw [tokenizerActor_eq h]
  split
  · next hnil =>
    rw [hnil, List.filter_cons_of_neg (by simpa using hdummy), List.filter_nil]
  · simp only [List.filter_filter, Bool.and_self]

def lettersRequest : Request Text Text where
  raw := []
  textCol := ['t', 'e', 'x', 't']
  datasetName := ['d']
  modelName := ['m']
  seqLen := 4
  format := none
  formatOptions := none
  cacheDir := []
  overwriteCache := false

theorem letters_padsToLength : PadsToLength letters lettersRequest where
  ids := by
    intro text
    simp only [letters, lettersRequest, List.length_append, List.length_map, List.length_take,
      List.length_replicate]
    omega
  mask := by
    intro text
    simp only [letters, lettersRequest, List.length_append, List.length_map, List.length_take,
      List.length_replicate]
    omega
  binary := by
    intro text m hm
    cases List.mem_append.1 hm with
    | inl hm =>
      obtain ⟨_, -, rfl⟩ := List.mem_map.1 hm
      exact Or.inr rfl
    | inr hm => exact Or.inl (List.eq_of_mem_replicate hm)

theorem tokenizerActor_rows_letters :
    ((∃ row ∈ tokenised letters lettersRequest [['a'], []], Attended row) →
      tokenizerActor letters lettersRequest [['a'], []] =
          (tokenised letters lettersRequest [['a'], []]).filter Attended ∧
        ∀ row ∈ tokenizerActor letters lettersRequest [['a'], []], Attended row) ∧
    ((∀ row ∈ tokenised letters lettersRequest [['a'], []], ¬Attended row) →
      tokenizerActor letters lettersRequest [['a'], []] = [dummyRow 4]) ∧
    ∀ row ∈ tokenizerActor letters lettersRequest [['a'], []], Labelled 4 row :=
  tokenizerActor_rows letters_padsToLength _

/-- A batch of one empty text: no tokenised row is attended, and a row is returned. -/
theorem tokenizerActor_empty_text :
    (tokenised letters lettersRequest [[]]).filter Attended = [] ∧
      tokenizerActor letters lettersRequest [[]] = [dummyRow 4] ∧ ¬Attended (dummyRow 4) := by
  decide +kernel

end Slakshna.TokenCache

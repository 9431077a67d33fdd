import Mathlib.Algebra.BigOperators.Group.List.Lemmas
import Mathlib.Algebra.Order.Ring.Rat
import Mathlib.Data.String.Basic
import Slakshna.Lib.Ranking
import Slakshna.Chain.Lattice

/-! Reputation and the elected committee. The source folds over two hash maps and sorts; the result
is the ranking of the evaluated nodes by the exact sum of the trust they were given. -/
namespace Slakshna.Committee
open LatticeBlock Chains
variable {F : Type}

def target? (b : LatticeBlock F) : Option String :=
  match b.blockType with
  | .evaluation targetNode _ _ _ => some targetNode
  | .proposal _ _ => none

variable [ExactValue F]

def accumulate (reputation : HashMap String ℚ) (b : LatticeBlock F) : HashMap String ℚ :=
  match b.blockType with
  | .evaluation targetNode _ _ trustScore =>
    reputation.upsert targetNode 0 (fun rep => rep + ExactValue.toRat trustScore)
  | .proposal _ _ => reputation

structure CallOrder (F : Type) where
  chains : IterOrder (String × List (LatticeBlock F))
  reputation : IterOrder (String × ℚ)

def globalReputation (o : CallOrder F) (chains : LatticeChains F) : HashMap String ℚ :=
  (chains.iter o.chains).foldl (fun rep entry => entry.2.foldl accumulate rep) ∅

def eligibleNodes (o : CallOrder F) (chains : LatticeChains F) : List (String × ℚ) :=
  Ranking.sortScored ((globalReputation o chains).iter o.reputation)

def getElectedCommittee (o : CallOrder F) (chains : LatticeChains F) (k : ℕ) : List String :=
  ((eligibleNodes o chains).take k).map Prod.fst

def getCommitteeWithReputation (o : CallOrder F) (chains : LatticeChains F) (k : ℕ) :
    List (String × ℚ) :=
  (eligibleNodes o chains).take k

def trustTo (id : String) (b : LatticeBlock F) : ℚ :=
  match b.blockType with
  | .evaluation targetNode _ _ trustScore =>
    if targetNode = id then ExactValue.toRat trustScore else 0
  | .proposal _ _ => 0

def trustSum (blocks : List (LatticeBlock F)) (id : String) : ℚ := (blocks.map (trustTo id)).sum

omit [ExactValue F] in
def evaluatedNodes (blocks : List (LatticeBlock F)) : Finset String :=
  (blocks.filterMap target?).toFinset

theorem trustSum_perm {bs cs : List (LatticeBlock F)} (h : bs.Perm cs) (id : String) :
    trustSum bs id = trustSum cs id := (h.map (trustTo id)).sum_eq

omit [ExactValue F] in
theorem evaluatedNodes_perm {bs cs : List (LatticeBlock F)} (h : bs.Perm cs) :
    evaluatedNodes bs = evaluatedNodes cs := by
  ext id
  simp only [evaluatedNodes, List.mem_toFinset]
  exact (h.filterMap target?).mem_iff

theorem lookup_accumulate (rep : HashMap String ℚ) (b : LatticeBlock F) (id : String) :
    (accumulate rep b).lookup id =
      if target? b = some id then some ((rep.lookup id).getD 0 + trustTo id b)
      else rep.lookup id := by
  cases h : b.blockType with
  | proposal p d => simp [accumulate, target?, h]
  | evaluation t q l s =>
    by_cases ht : t = id
    · subst ht
      simp [accumulate, target?, trustTo, h]
    · simp [accumulate, target?, h, ht, HashMap.lookup_upsert_ne _ _ _ (Ne.symm ht)]

theorem trustTo_of_target_ne {b : LatticeBlock F} {id : String} (h : target? b ≠ some id) :
    trustTo id b = 0 := by
  cases hb : b.blockType with
  | proposal p d => simp [trustTo, hb]
  | evaluation t q l s =>
    have ht : t ≠ id := by simpa [target?, hb] using h
    simp [trustTo, hb, ht]

theorem trustSum_of_notMem {bs : List (LatticeBlock F)} {id : String}
    (h : id ∉ evaluatedNodes bs) : trustSum bs id = 0 := by
  apply List.sum_eq_zero
  simp only [List.mem_map, forall_exists_index, and_imp]
  rintro x b hb rfl
  apply trustTo_of_target_ne
  intro ht
  exact h (by simpa [evaluatedNodes] using ⟨b, hb, ht⟩)

omit [ExactValue F] in
theorem mem_evaluatedNodes_cons (b : LatticeBlock F) (bs : List (LatticeBlock F)) (id : String) :
    id ∈ evaluatedNodes (b :: bs) ↔ target? b = some id ∨ id ∈ evaluatedNodes bs := by
  simp [evaluatedNodes]

theorem trustSum_cons (b : LatticeBlock F) (bs : List (LatticeBlock F)) (id : String) :
    trustSum (b :: bs) id = trustTo id b + trustSum bs id := by simp [trustSum]

theorem lookup_foldl_accumulate (bs : List (LatticeBlock F)) (rep : HashMap String ℚ)
    (id : String) : (bs.foldl accumulate rep).lookup id =
      if id ∈ evaluatedNodes bs then some ((rep.lookup id).getD 0 + trustSum bs id)
      else rep.lookup id := by
  induction bs generalizing rep with
  | nil => simp [evaluatedNodes]
  | cons b bs ih =>
    rw [List.foldl_cons, ih, lookup_accumulate, trustSum_cons]
    simp only [mem_evaluatedNodes_cons]
    by_cases hb : target? b = some id
    · by_cases hmem : id ∈ evaluatedNodes bs
      · simp [hb, hmem, add_assoc]
      · simp [hb, hmem, trustSum_of_notMem hmem]
    · simp [hb, trustTo_of_target_ne hb]

theorem lookup_globalReputation (o : CallOrder F) (chains : LatticeChains F) (id : String) :
    (globalReputation o chains).lookup id =
      if id ∈ evaluatedNodes chains.allValues then some (trustSum chains.allValues id)
      else none := by
  have hp := HashMap.flatMap_iter_perm chains o.chains
  have hflat : globalReputation o chains =
      ((chains.iter o.chains).flatMap Prod.snd).foldl accumulate ∅ := by
    rw [List.foldl_flatMap, globalReputation]
  rw [hflat, lookup_foldl_accumulate, evaluatedNodes_perm hp, trustSum_perm hp]
  simp

def reputation (o : CallOrder F) (chains : LatticeChains F) (id : String) : ℚ :=
  ((globalReputation o chains).lookup id).getD 0

theorem reputation_eq (o : CallOrder F) (chains : LatticeChains F) (id : String) :
    reputation o chains id = trustSum chains.allValues id := by
  by_cases h : id ∈ evaluatedNodes chains.allValues
  · simp [reputation, lookup_globalReputation, h]
  · simp [reputation, lookup_globalReputation, h, trustSum_of_notMem h]

def rankedNodes (blocks : List (LatticeBlock F)) : List String :=
  Ranking.ranking (trustSum blocks) (evaluatedNodes blocks)

theorem map_fst_eligibleNodes (o : CallOrder F) (chains : LatticeChains F) :
    (eligibleNodes o chains).map Prod.fst = rankedNodes chains.allValues := by
  have hentry : ∀ p ∈ (globalReputation o chains).iter o.reputation,
      p.1 ∈ evaluatedNodes chains.allValues ∧ p.2 = trustSum chains.allValues p.1 := by
    intro p hp
    rw [HashMap.mem_iter_iff, lookup_globalReputation] at hp
    by_cases h : p.1 ∈ evaluatedNodes chains.allValues
    · rw [if_pos h] at hp
      exact ⟨h, (Option.some.inj hp).symm⟩
    · simp [h] at hp
  have hids : (((globalReputation o chains).iter o.reputation).map Prod.fst).toFinset =
      evaluatedNodes chains.allValues := by
    ext id
    simp only [List.mem_toFinset, List.mem_map]
    constructor
    · intro h
      obtain ⟨p, hp, rfl⟩ := h
      exact (hentry p hp).1
    · intro h
      refine ⟨(id, trustSum chains.allValues id), ?_, rfl⟩
      rw [HashMap.mem_iter_iff, lookup_globalReputation, if_pos h]
  rw [eligibleNodes, Ranking.map_fst_sortScored _ _ (fun p hp => (hentry p hp).2)
    (HashMap.nodup_keys_iter _ _), hids, rankedNodes]

theorem getElectedCommittee_eq (o : CallOrder F) (chains : LatticeChains F) (k : ℕ) :
    getElectedCommittee o chains k = (rankedNodes chains.allValues).take k := by
  rw [getElectedCommittee, List.map_take, map_fst_eligibleNodes]

theorem committeeWithReputation_ids (o : CallOrder F) (chains : LatticeChains F) (k : ℕ) :
    (getCommitteeWithReputation o chains k).map Prod.fst =
      (rankedNodes chains.allValues).take k := by
  rw [getCommitteeWithReputation, List.map_take, map_fst_eligibleNodes]

theorem rankedNodes_congr {bs cs : List (LatticeBlock F)}
    (hsum : ∀ id, trustSum bs id = trustSum cs id)
    (hids : evaluatedNodes bs = evaluatedNodes cs) : rankedNodes bs = rankedNodes cs := by
  rw [rankedNodes, rankedNodes, hids, funext hsum]

omit [ExactValue F] in
def IsEvaluation (b : LatticeBlock F) : Prop := (target? b).isSome

omit [ExactValue F] in
instance (b : LatticeBlock F) : Decidable (IsEvaluation b) := inferInstanceAs (Decidable (_ = _))

def evaluations (blocks : List (LatticeBlock F)) : List (LatticeBlock F) :=
  blocks.filter (fun b => IsEvaluation b)

theorem trustSum_evaluations (bs : List (LatticeBlock F)) (id : String) :
    trustSum (evaluations bs) id = trustSum bs id := by
  induction bs with
  | nil => rfl
  | cons b bs ih =>
    by_cases h : IsEvaluation b
    · rw [evaluations, List.filter_cons_of_pos (by simpa using h), trustSum_cons, trustSum_cons]
      rw [← ih, evaluations]
    · have hb : target? b ≠ some id := by
        intro ht
        simp [IsEvaluation, ht] at h
      rw [evaluations, List.filter_cons_of_neg (by simpa using h), trustSum_cons,
        trustTo_of_target_ne hb, zero_add, ← ih, evaluations]

omit [ExactValue F] in
theorem evaluatedNodes_evaluations (bs : List (LatticeBlock F)) :
    evaluatedNodes (evaluations bs) = evaluatedNodes bs := by
  ext id
  simp only [evaluatedNodes, evaluations, List.mem_toFinset, List.mem_filterMap, List.mem_filter,
    decide_eq_true_eq]
  constructor
  · intro h
    obtain ⟨b, ⟨hb, _⟩, ht⟩ := h
    exact ⟨b, hb, ht⟩
  · intro h
    obtain ⟨b, hb, ht⟩ := h
    exact ⟨b, ⟨hb, by simp [IsEvaluation, ht]⟩, ht⟩

theorem rankedNodes_evaluations (bs : List (LatticeBlock F)) :
    rankedNodes (evaluations bs) = rankedNodes bs :=
  rankedNodes_congr (trustSum_evaluations bs) (evaluatedNodes_evaluations bs)

theorem rankedNodes_perm {bs cs : List (LatticeBlock F)}
    (h : (evaluations bs).Perm (evaluations cs)) : rankedNodes bs = rankedNodes cs := by
  rw [← rankedNodes_evaluations bs, ← rankedNodes_evaluations cs]
  exact rankedNodes_congr (trustSum_perm h) (evaluatedNodes_perm h)

/-- The committee is the head of the ranking of the evaluated nodes. The map orders, the block
orders and the chain a block is stored in play no part, and both functions agree. -/
theorem getElectedCommittee_ranks (o : CallOrder F) (chains : LatticeChains F) (k : ℕ) :
    getElectedCommittee o chains k = (rankedNodes chains.allValues).take k ∧
    (∀ o' : CallOrder F, getElectedCommittee o chains k =
      (getCommitteeWithReputation o' chains k).map Prod.fst) ∧
    ∀ (o' : CallOrder F) (chains' : LatticeChains F),
      (evaluations chains.allValues).Perm (evaluations chains'.allValues) →
        getElectedCommittee o chains k = getElectedCommittee o' chains' k := by
  refine ⟨getElectedCommittee_eq o chains k, fun o' => ?_, fun o' chains' h => ?_⟩
  · rw [getElectedCommittee_eq, committeeWithReputation_ids]
  · rw [getElectedCommittee_eq, getElectedCommittee_eq, rankedNodes_perm h]

section Redelivery
variable [LeBytes F] [Sha256]

theorem reputation_add (o o' : CallOrder F) (chains : LatticeChains F) {b : LatticeBlock F}
    (h : HashOk b) (id : String) :
    reputation o (addLatticeBlock chains b) id = trustTo id b + reputation o' chains id := by
  rw [reputation_eq, reputation_eq, add_of_hashOk chains h,
    trustSum_perm (HashMap.allValues_push chains b.nodeId b), trustSum_cons]

theorem rankedNodes_add_stored {chains : LatticeChains F} {b : LatticeBlock F} (hok : HashOk b)
    (hb : b ∈ chains.allValues) (hzero : ∀ id, trustTo id b = 0) :
    rankedNodes (addLatticeBlock chains b).allValues = rankedNodes chains.allValues := by
  have hp := HashMap.allValues_push chains b.nodeId b
  rw [add_of_hashOk chains hok]
  apply rankedNodes_congr
  · intro id
    rw [trustSum_perm hp, trustSum_cons, hzero, zero_add]
  · ext id
    rw [evaluatedNodes_perm hp, mem_evaluatedNodes_cons, or_iff_right_of_imp]
    intro ht
    simpa [evaluatedNodes] using ⟨b, hb, ht⟩

/-- A stored block delivered again gives its trust again. Nodes agree when they accepted the same
deliveries equally often, in whatever order. -/
theorem receive_election (blocks : List (LatticeBlock F)) :
    (∀ b ∈ (receive ∅ blocks).allValues,
      (∀ o o' id, reputation o (addLatticeBlock (receive ∅ blocks) b) id =
        trustTo id b + reputation o' (receive ∅ blocks) id) ∧
      ((∀ id, trustTo id b = 0) → ∀ o o' k,
        getElectedCommittee o (addLatticeBlock (receive ∅ blocks) b) k =
          getElectedCommittee o' (receive ∅ blocks) k)) ∧
    ∀ blocks' : List (LatticeBlock F),
      (blocks.filter (fun b => HashOk b)).Perm (blocks'.filter (fun b => HashOk b)) → ∀ o o' k,
        getElectedCommittee o (receive ∅ blocks) k =
          getElectedCommittee o' (receive ∅ blocks') k := by
  constructor
  · intro b hb
    have hok := hashOk_of_stored hb
    refine ⟨fun o o' id => reputation_add o o' _ hok id, fun hzero o o' k => ?_⟩
    rw [getElectedCommittee_eq, getElectedCommittee_eq, rankedNodes_add_stored hok hb hzero]
  · intro blocks' h o o' k
    have hstored : (receive ∅ blocks).allValues.Perm (receive ∅ blocks').allValues :=
      (allValues_receive ∅ blocks).trans
        ((h.append_right _).trans (allValues_receive ∅ blocks').symm)
    rw [getElectedCommittee_eq, getElectedCommittee_eq,
      rankedNodes_perm (hstored.filter _)]

end Redelivery

def supportingBlock : LatticeBlock FiniteF64 :=
  ⟨"node", "", .evaluation "peer" "" 0 .half, "", ""⟩

/-- One evaluation with trust 0.5, stored and delivered again, leaves its target with 1.0. -/
theorem receive_replayed : ¬ ∃ _ : Sha256, ∀ blocks : List (LatticeBlock FiniteF64),
    ∀ b ∈ (receive ∅ blocks).allValues, ∀ o o' id,
      reputation o (addLatticeBlock (receive ∅ blocks) b) id =
        reputation o' (receive ∅ blocks) id := by
  intro hall
  obtain ⟨_, h⟩ := hall
  have hok : HashOk supportingBlock.sealed := hashOk_sealed _
  have hstored : supportingBlock.sealed ∈ (receive ∅ [supportingBlock.sealed]).allValues := by
    rw [(allValues_receive ∅ _).mem_iff, List.filter_cons_of_pos (by simpa using hok)]
    simp
  have hsame := h [supportingBlock.sealed] _ hstored ⟨.asStored, .asStored⟩ ⟨.asStored, .asStored⟩
    "peer"
  rw [reputation_add _ ⟨.asStored, .asStored⟩ _ hok] at hsame
  have htrust : trustTo "peer" supportingBlock.sealed = 1/2 := FiniteF64.toRat_half
  rw [htrust] at hsame
  linarith

section Support
variable [LeBytes F] [Sha256] {chains : LatticeChains F} {b : LatticeBlock F} {x proposalHash : String}
  {lossDrop trustScore : F}

omit [ExactValue F] in
theorem evaluatedNodes_add (hok : HashOk b) (htarget : target? b = some x) :
    evaluatedNodes (addLatticeBlock chains b).allValues =
      insert x (evaluatedNodes chains.allValues) := by
  rw [add_of_hashOk chains hok, evaluatedNodes_perm (HashMap.allValues_push chains b.nodeId b)]
  ext id
  rw [mem_evaluatedNodes_cons, htarget, Finset.mem_insert, Option.some_inj, eq_comm]

theorem raised_add (hok : HashOk b) (htarget : target? b = some x) (htrust : 0 ≤ trustTo x b) :
    Ranking.Raised (trustSum chains.allValues)
      (trustSum (addLatticeBlock chains b).allValues) x := by
  have hsum : ∀ id, trustSum (addLatticeBlock chains b).allValues id =
      trustTo id b + trustSum chains.allValues id := by
    intro id
    rw [add_of_hashOk chains hok, trustSum_perm (HashMap.allValues_push chains b.nodeId b),
      trustSum_cons]
  constructor
  · rw [hsum]
    exact le_add_of_nonneg_left htrust
  · intro id hid
    have hother : target? b ≠ some id := by
      rw [htarget]
      exact fun h => hid (Option.some.inj h).symm
    rw [hsum, trustTo_of_target_ne hother, zero_add]

/-- An accepted evaluation with a trust of at least 0 keeps its target in the committee, and brings
in no other node. -/
theorem getElectedCommittee_support (o o' : CallOrder F) (chains : LatticeChains F) (k : ℕ)
    (hok : HashOk b) (htype : b.blockType = .evaluation x proposalHash lossDrop trustScore)
    (htrust : 0 ≤ ExactValue.toRat trustScore) :
    (x ∈ getElectedCommittee o chains k →
      x ∈ getElectedCommittee o' (addLatticeBlock chains b) k) ∧
    ∀ m ∈ getElectedCommittee o' (addLatticeBlock chains b) k, m ≠ x →
      m ∈ getElectedCommittee o chains k := by
  have htarget : target? b = some x := by rw [target?, htype]
  have hgiven : trustTo x b = ExactValue.toRat trustScore := by simp [trustTo, htype]
  have hraised : Ranking.Raised (trustSum chains.allValues)
      (trustSum (addLatticeBlock chains b).allValues) x :=
    raised_add hok htarget (hgiven ▸ htrust)
  rw [getElectedCommittee_eq, getElectedCommittee_eq, rankedNodes, rankedNodes,
    evaluatedNodes_add hok htarget]
  exact hraised.first k

end Support

theorem getElectedCommittee_support_sample :
    letI := sampleDigest
    let chains := receive ∅ [supportingBlock.sealed]
    ("peer" ∈ getElectedCommittee ⟨.asStored, .asStored⟩ chains 1 →
      "peer" ∈ getElectedCommittee ⟨.asStored, .asStored⟩
        (addLatticeBlock chains supportingBlock.sealed) 1) ∧
    ∀ m ∈ getElectedCommittee ⟨.asStored, .asStored⟩
        (addLatticeBlock chains supportingBlock.sealed) 1, m ≠ "peer" →
      m ∈ getElectedCommittee ⟨.asStored, .asStored⟩ chains 1 := by
  let := sampleDigest
  have hhalf : 0 ≤ ExactValue.toRat FiniteF64.half := by
    rw [FiniteF64.toRat_half]
    norm_num
  exact getElectedCommittee_support _ _ _ 1 (hashOk_sealed supportingBlock) rfl hhalf

end Slakshna.Committee

import Slakshna.Chain.Committee

/-! What one evaluator adds to one node. The store bounds neither a trust score nor how often, or
for what, it is given; the bound by the node's proposals is a matter of how the evaluator behaves. -/
namespace Slakshna.Contribution
open LatticeBlock Chains Committee
variable {F : Type}

def judgedHash? (t : String) (b : LatticeBlock F) : Option String :=
  match b.blockType with
  | .evaluation targetNode proposalHash _ _ => if targetNode = t then some proposalHash else none
  | .proposal _ _ => none

def judged (t : String) (chain : List (LatticeBlock F)) : List String :=
  chain.filterMap (judgedHash? t)

def IsProposal (b : LatticeBlock F) : Prop := (target? b).isNone

instance (b : LatticeBlock F) : Decidable (IsProposal b) := inferInstanceAs (Decidable (_ = _))

def proposals (chain : List (LatticeBlock F)) : List (LatticeBlock F) :=
  chain.filter (fun b => IsProposal b)

theorem judged_append (t : String) (xs ys : List (LatticeBlock F)) :
    judged t (xs ++ ys) = judged t xs ++ judged t ys := List.filterMap_append

theorem mem_proposals_append {p : LatticeBlock F} {xs : List (LatticeBlock F)}
    (ys : List (LatticeBlock F)) (h : p ∈ proposals xs) : p ∈ proposals (xs ++ ys) := by
  rw [proposals, List.filter_append]
  exact List.mem_append_left _ h

section Trust
variable [ExactValue F]

def contribution (chains : LatticeChains F) (e t : String) : ℚ := trustSum (chainOf chains e) t

theorem trustSum_append (xs ys : List (LatticeBlock F)) (id : String) :
    trustSum (xs ++ ys) id = trustSum xs id + trustSum ys id := by simp [trustSum]

theorem trustTo_of_not_judged {t : String} {b : LatticeBlock F} (h : judgedHash? t b = none) :
    trustTo t b = 0 := by
  cases hb : b.blockType with
  | proposal p d => simp [trustTo, hb]
  | evaluation u q l s =>
    have hu : u ≠ t := by simpa [judgedHash?, hb] using h
    simp [trustTo, hb, hu]

theorem reputation_eq_sum (o : CallOrder F) (chains : LatticeChains F) (t : String) :
    reputation o chains t = (chains.keys.map (fun e => contribution chains e t)).sum := by
  have hkeys : chains.keys.map (fun e => contribution chains e t) =
      chains.entries.map (fun entry => trustSum entry.2 t) := by
    rw [AList.keys, List.keys, List.map_map]
    apply List.map_congr_left
    intro entry hentry
    have hlook := (HashMap.mem_entries_iff chains entry.1 entry.2).1 hentry
    simp [contribution, chainOf, hlook]
  rw [reputation_eq, hkeys, HashMap.allValues, trustSum, List.map_flatMap, List.flatMap_def,
    List.sum_flatten, List.map_map]
  rfl

end Trust

section Fair
variable [ExactValue F] [LeBytes F] [Sha256]

/-- An accepted evaluation of `t` by `e` gives a weight, and gives it to a stored proposal of `t`
that `e` has not judged before. -/
def Fair (e t : String) (chains : LatticeChains F) (b : LatticeBlock F) : Prop :=
  HashOk b → b.nodeId = e → ∀ q, judgedHash? t b = some q →
    0 ≤ trustTo t b ∧ trustTo t b ≤ 1 ∧
    (∃ p ∈ proposals (chainOf chains t), p.hash = q) ∧ q ∉ judged t (chainOf chains e)

structure Bounded (e t : String) (chains : LatticeChains F) : Prop where
  nodup : (judged t (chainOf chains e)).Nodup
  stored : ∀ q ∈ judged t (chainOf chains e), ∃ p ∈ proposals (chainOf chains t), p.hash = q
  nonneg : 0 ≤ contribution chains e t
  le_judged : contribution chains e t ≤ (judged t (chainOf chains e)).length

omit [LeBytes F] [Sha256] in
theorem bounded_empty (e t : String) : Bounded e t (∅ : LatticeChains F) where
  nodup := by simp [judged]
  stored := by simp [judged]
  nonneg := by simp [contribution, trustSum]
  le_judged := by simp [contribution, trustSum, judged]

omit [ExactValue F] in
theorem stored_add {t q : String} {chains : LatticeChains F} (b : LatticeBlock F)
    (h : ∃ p ∈ proposals (chainOf chains t), p.hash = q) :
    ∃ p ∈ proposals (chainOf (addLatticeBlock chains b) t), p.hash = q := by
  obtain ⟨p, hp, hq⟩ := h
  rw [chainOf_add]
  exact ⟨p, mem_proposals_append _ hp, hq⟩

theorem bounded_add {e t : String} (chains : LatticeChains F) (b : LatticeBlock F)
    (h : Bounded e t chains) (hfair : Fair e t chains b) :
    Bounded e t (addLatticeBlock chains b) := by
  have hchain := chainOf_add chains b e
  by_cases hb : HashOk b ∧ b.nodeId = e
  · rw [if_pos hb] at hchain
    have hjudged : judged t (chainOf (addLatticeBlock chains b) e) =
        judged t (chainOf chains e) ++ judged t [b] := by rw [hchain, judged_append]
    have hsum : contribution (addLatticeBlock chains b) e t =
        contribution chains e t + trustTo t b := by
      rw [contribution, hchain, trustSum_append]
      simp [contribution, trustSum]
    cases hq : judgedHash? t b with
    | none =>
      have hnone : judged t [b] = [] := by simp [judged, hq]
      rw [hnone, List.append_nil] at hjudged
      rw [trustTo_of_not_judged hq, add_zero] at hsum
      constructor
      · rw [hjudged]
        exact h.nodup
      · rw [hjudged]
        exact fun q hmem => stored_add b (h.stored q hmem)
      · rw [hsum]
        exact h.nonneg
      · rw [hsum, hjudged]
        exact h.le_judged
    | some q =>
      obtain ⟨hlow, hhigh, hprop, hfresh⟩ := hfair hb.1 hb.2 q hq
      have hone : judged t [b] = [q] := by simp [judged, hq]
      rw [hone] at hjudged
      constructor
      · rw [hjudged, ← List.concat_eq_append]
        exact h.nodup.concat hfresh
      · rw [hjudged]
        intro r hr
        rcases List.mem_append.1 hr with hr | hr
        · exact stored_add b (h.stored r hr)
        · rw [List.mem_singleton.1 hr]
          exact stored_add b hprop
      · rw [hsum]
        exact add_nonneg h.nonneg hlow
      · rw [hsum, hjudged, List.length_append]
        push_cast
        exact add_le_add h.le_judged (by simpa using hhigh)
  · rw [if_neg hb, List.append_nil] at hchain
    constructor
    · rw [hchain]
      exact h.nodup
    · rw [hchain]
      exact fun q hmem => stored_add b (h.stored q hmem)
    · rw [contribution, hchain]
      exact h.nonneg
    · rw [contribution, hchain]
      exact h.le_judged

omit [LeBytes F] [Sha256] in
theorem Bounded.le_proposals [DecidableEq F] {e t : String} {chains : LatticeChains F}
    (h : Bounded e t chains) :
    contribution chains e t ≤ (proposals (chainOf chains t)).toFinset.card := by
  have hsub : (judged t (chainOf chains e)).toFinset ⊆
      (proposals (chainOf chains t)).toFinset.image (fun p => p.hash) := by
    intro q hq
    obtain ⟨p, hp, hpq⟩ := h.stored q (List.mem_toFinset.1 hq)
    exact Finset.mem_image.2 ⟨p, List.mem_toFinset.2 hp, hpq⟩
  have hcard : (judged t (chainOf chains e)).length ≤
      (proposals (chainOf chains t)).toFinset.card :=
    calc
      (judged t (chainOf chains e)).length = (judged t (chainOf chains e)).toFinset.card :=
        (List.toFinset_card_of_nodup h.nodup).symm
      _ ≤ ((proposals (chainOf chains t)).toFinset.image (fun p => p.hash)).card :=
        Finset.card_le_card hsub
      _ ≤ (proposals (chainOf chains t)).toFinset.card := Finset.card_image_le
  exact h.le_judged.trans (by exact_mod_cast hcard)

/-- Reputation is what the chains contribute, and a chain contributes the scores of its author's
accepted evaluations, whatever they are. Where each of them was fair when it came, they add up to
at most the number of proposals. -/
theorem receive_contribution [DecidableEq F] (blocks : List (LatticeBlock F)) (e t : String) :
    (∀ o, reputation o (receive ∅ blocks) t =
      ((receive ∅ blocks).keys.map (fun e' => contribution (receive ∅ blocks) e' t)).sum) ∧
    contribution (receive ∅ blocks) e t =
      trustSum (blocks.filter (fun b => HashOk b ∧ b.nodeId = e)) t ∧
    (Run.Along addLatticeBlock (Fair e t) ∅ blocks →
      0 ≤ contribution (receive ∅ blocks) e t ∧
      contribution (receive ∅ blocks) e t ≤
        (proposals (chainOf (receive ∅ blocks) t)).toFinset.card) := by
  refine ⟨fun o => reputation_eq_sum o _ t, ?_, fun hfair => ?_⟩
  · rw [contribution, chainOf_receive, chainOf_empty, List.nil_append]
  · have hbounded : Bounded e t (receive ∅ blocks) :=
      Run.invariant bounded_add (bounded_empty e t) hfair
    exact ⟨hbounded.nonneg, hbounded.le_proposals⟩

end Fair

theorem receive_contribution_sample :
    letI := sampleDigest
    0 ≤ contribution (receive ∅ [samplePayload.sealed, sampleJudgement.sealed]) "node" "peer" ∧
    contribution (receive ∅ [samplePayload.sealed, sampleJudgement.sealed]) "node" "peer" ≤
      (proposals (chainOf (receive ∅ [samplePayload.sealed, sampleJudgement.sealed])
        "peer")).toFinset.card := by
  let := sampleDigest
  apply (receive_contribution [samplePayload.sealed, sampleJudgement.sealed] "node" "peer").2.2
  have hpeer : chainOf (addLatticeBlock ∅ samplePayload.sealed) "peer" = [samplePayload.sealed] :=
    chainOf_add_sealed samplePayload "peer"
  have hnode : chainOf (addLatticeBlock ∅ samplePayload.sealed) "node" = [] :=
    chainOf_add_sealed samplePayload "node"
  have htrust : trustTo "peer" sampleJudgement.sealed = 1/2 := FiniteF64.toRat_half
  have hnamed : samplePayload.sealed.hash =
    "7778f2817687344097a7cfe5ef08d998fb5f1dd78abcef9a95b7757165b8eb70" := by decide
  refine ⟨fun _ hid => absurd hid (by decide), fun _ _ q hq => ?_, trivial⟩
  obtain rfl := Option.some.inj hq
  rw [htrust, hpeer, hnode]
  exact ⟨by norm_num, by norm_num, ⟨_, List.mem_singleton.2 rfl, hnamed⟩, by simp [judged]⟩

/-- An evaluation of a node that has proposed nothing counts all the same. -/
theorem receive_unearned : ¬ ∃ _ : Sha256, ∀ (blocks : List (LatticeBlock FiniteF64)) (e t : String),
    0 ≤ contribution (receive ∅ blocks) e t ∧
    contribution (receive ∅ blocks) e t ≤
      (proposals (chainOf (receive ∅ blocks) t)).toFinset.card := by
  intro hall
  obtain ⟨_, h⟩ := hall
  have hnode : chainOf (receive ∅ [supportingBlock.sealed]) "node" = [supportingBlock.sealed] :=
    chainOf_add_sealed supportingBlock "node"
  have hpeer : chainOf (receive ∅ [supportingBlock.sealed]) "peer" = [] :=
    chainOf_add_sealed supportingBlock "peer"
  have htrust : trustTo "peer" supportingBlock.sealed = 1/2 := FiniteF64.toRat_half
  have hle := (h [supportingBlock.sealed] "node" "peer").2
  rw [contribution, hnode, hpeer] at hle
  norm_num [trustSum, htrust, proposals] at hle

end Slakshna.Contribution

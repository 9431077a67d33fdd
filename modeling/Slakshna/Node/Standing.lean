import Slakshna.Chain.Contribution
import Slakshna.Node.Epoch

/-! What a node's own blocks do to its own standing: deliveries are compared with the same deliveries
without them. Nothing keeps a node from evaluating itself, and the epoch loop does so. -/
namespace Slakshna.Standing
open LatticeBlock Chains Committee Contribution Epoch
variable {F : Type}

def withoutAuthor (n : String) (blocks : List (LatticeBlock F)) : List (LatticeBlock F) :=
  blocks.filter (fun b => b.nodeId ≠ n)

section Deliveries
variable [LeBytes F] [Sha256]

def ownAccepted (n : String) (blocks : List (LatticeBlock F)) : List (LatticeBlock F) :=
  blocks.filter (fun b => HashOk b ∧ b.nodeId = n)

theorem accepted_perm (n : String) (blocks : List (LatticeBlock F)) :
    (blocks.filter (fun b => HashOk b)).Perm
      (ownAccepted n blocks ++ (withoutAuthor n blocks).filter (fun b => HashOk b)) := by
  induction blocks with
  | nil => exact List.Perm.nil
  | cons b blocks ih =>
    rw [ownAccepted, withoutAuthor] at ih ⊢
    by_cases hok : HashOk b
    · by_cases hn : b.nodeId = n
      · simpa [hok, hn] using ih
      · simpa [hok, hn] using (ih.cons b).trans List.perm_middle.symm
    · by_cases hn : b.nodeId = n
      · simpa [hok, hn] using ih
      · simpa [hok, hn] using ih

variable [ExactValue F]

theorem reputation_receive (o o' : CallOrder F) (chains : LatticeChains F)
    (blocks : List (LatticeBlock F)) (id : String) :
    reputation o (receive chains blocks) id =
      trustSum (blocks.filter (fun b => HashOk b)) id + reputation o' chains id := by
  rw [reputation_eq, reputation_eq, trustSum_perm (allValues_receive chains blocks), trustSum_append]

theorem reputation_own (o o' : CallOrder F) (chains : LatticeChains F)
    (blocks : List (LatticeBlock F)) (n : String) :
    reputation o (receive chains blocks) n =
      trustSum (ownAccepted n blocks) n + reputation o' (receive chains (withoutAuthor n blocks)) n := by
  rw [reputation_receive o o', reputation_receive o' o', trustSum_perm (accepted_perm n blocks),
    trustSum_append, add_assoc]

variable [Zero F]

omit [LeBytes F] [Sha256] [ExactValue F] [Zero F] in
def weightsOf (id : String) (ws : List (String × F)) : List F :=
  (ws.filter (fun w => w.1 = id)).map Prod.snd

theorem trustTo_evalBlock (cfg : Config) (epochStart : ℕ) (tail peer proposalHash id : String)
    (weight : F) : trustTo id (evalBlock cfg epochStart tail peer proposalHash weight) =
      if peer = id then ExactValue.toRat weight else 0 := rfl

theorem trustSum_buildEvaluations (cfg : Config) (epochStart : ℕ) (chains : LatticeChains F)
    (ws : List (String × F)) (tail id : String) :
    trustSum (buildEvaluations cfg epochStart chains ws tail) id =
      if (latestProposal (chainOf chains id)).isSome
      then ((weightsOf id ws).map ExactValue.toRat).sum else 0 := by
  induction ws generalizing tail with
  | nil => simp [buildEvaluations, trustSum, weightsOf]
  | cons w ws ih =>
    obtain ⟨peer, weight⟩ := w
    rw [buildEvaluations]
    by_cases hpeer : peer = id
    · cases hp : latestProposal (chainOf chains peer) with
      | none =>
        rw [hpeer] at hp
        simp only [ih, hp]
        rfl
      | some p =>
        rw [hpeer] at hp
        simp only [trustSum_cons, ih, trustTo_evalBlock, hp, if_pos hpeer]
        simp [weightsOf, hpeer]
    · have hskip : weightsOf id ((peer, weight) :: ws) = weightsOf id ws := by
        simp [weightsOf, hpeer]
      rw [hskip]
      cases hp : latestProposal (chainOf chains peer) with
      | none => exact ih tail
      | some p =>
        simp only [trustSum_cons, ih, trustTo_evalBlock, if_neg hpeer, zero_add]

omit [LeBytes F] [Sha256] [ExactValue F] [Zero F] in
theorem weightsOf_iter (m : HashMap String F) (o : IterOrder (String × F)) (id : String) :
    (weightsOf id (m.iter o)).Perm (m.lookup id).toList := by
  have hentries : ((m.iter o).filter (fun w => w.1 = id)).Perm
      ((m.lookup id).map (fun w => (id, w))).toList := by
    refine (List.perm_ext_iff_of_nodup ?_ ?_).2 ?_
    · exact (List.Nodup.of_map Prod.fst (HashMap.nodup_keys_iter m o)).filter _
    · cases m.lookup id <;> simp
    · intro w
      simp only [List.mem_filter, HashMap.mem_iter_iff, decide_eq_true_eq, Option.mem_toList,
        Option.map_eq_some_iff]
      constructor
      · intro h
        exact ⟨w.2, h.2 ▸ h.1, by rw [← h.2]⟩
      · intro h
        obtain ⟨v, hv, rfl⟩ := h
        exact ⟨hv, rfl⟩
  have hsecond := hentries.map Prod.snd
  cases hw : m.lookup id with
  | none => simpa [weightsOf, hw] using hsecond
  | some w => simpa [weightsOf, hw] using hsecond

/-- What an epoch of an honest node adds to it: the weight its engine gives the node itself, where it
has a proposal of its own already. -/
def ownWeight (cfg : Config) (chains : LatticeChains F) (out : MLEngineOutput F) : ℚ :=
  if (latestProposal (chainOf chains cfg.nodeId)).isSome
  then (out.weights.lookup cfg.nodeId).elim 0 ExactValue.toRat else 0

theorem reputation_epoch (o o' : CallOrder F) (ord : IterOrder (String × F)) (cfg : Config)
    (epochStart : ℕ) (myPrevHash : String) (chains : LatticeChains F) (out : MLEngineOutput F) :
    reputation o (receive chains (buildProposal cfg epochStart myPrevHash (some out) ::
        build cfg epochStart chains ord (buildProposal cfg epochStart myPrevHash (some out))
          (some out))) cfg.nodeId =
      ownWeight cfg chains out + reputation o' chains cfg.nodeId := by
  have hsum : ((weightsOf cfg.nodeId (out.weights.iter ord)).map ExactValue.toRat).sum =
      (out.weights.lookup cfg.nodeId).elim 0 ExactValue.toRat := by
    rw [((weightsOf_iter out.weights ord cfg.nodeId).map ExactValue.toRat).sum_eq]
    cases out.weights.lookup cfg.nodeId <;> simp
  have hproposal : trustTo cfg.nodeId (buildProposal cfg epochStart myPrevHash (some out)) = 0 := rfl
  rw [reputation_receive o o', List.filter_eq_self.2, trustSum_cons, hproposal, zero_add, build,
    trustSum_buildEvaluations, hsum, ownWeight]
  intro b hb
  rw [decide_eq_true_iff]
  cases List.mem_cons.1 hb with
  | inl h =>
    rw [h]
    exact hashOk_sealed _
  | inr h =>
    obtain ⟨w, _, p, _, tail, rfl⟩ := mem_buildEvaluations h
    exact hashOk_sealed _

end Deliveries

section Main
variable [LeBytes F] [Sha256] [ExactValue F] [Zero F]

/-- Compared with the same deliveries without its own blocks, a node's reputation is higher by the
exact sum of what its accepted evaluations give itself. It is the same exactly if that is 0; an honest
epoch gives what the engine's weights do. -/
theorem receive_standing (chains : LatticeChains F) (blocks : List (LatticeBlock F)) (n : String)
    (o o' : CallOrder F) :
    reputation o (receive chains blocks) n =
      trustSum (ownAccepted n blocks) n +
        reputation o' (receive chains (withoutAuthor n blocks)) n ∧
    (reputation o (receive chains blocks) n =
        reputation o' (receive chains (withoutAuthor n blocks)) n ↔
      trustSum (ownAccepted n blocks) n = 0) ∧
    ∀ (ord : IterOrder (String × F)) (cfg : Config) (epochStart : ℕ) (myPrevHash : String)
      (out : MLEngineOutput F),
      reputation o (receive chains (buildProposal cfg epochStart myPrevHash (some out) ::
          build cfg epochStart chains ord (buildProposal cfg epochStart myPrevHash (some out))
            (some out))) cfg.nodeId =
        ownWeight cfg chains out + reputation o' chains cfg.nodeId := by
  refine ⟨reputation_own o o' chains blocks n, ?_, ?_⟩
  · rw [reputation_own o o' chains blocks n, add_eq_right]
  · exact fun ord cfg epochStart myPrevHash out =>
      reputation_epoch o o' ord cfg epochStart myPrevHash chains out

end Main

def selfPraise : LatticeBlock FiniteF64 :=
  ⟨"node", genesisHash, .evaluation "node" "" 0 .half, "", ""⟩

/-- One evaluation of itself leaves a node with 0.5. -/
theorem receive_selfPraise : ¬∃ _ : Sha256, ∀ (chains : LatticeChains FiniteF64)
    (blocks : List (LatticeBlock FiniteF64)) (n : String) (o o' : CallOrder FiniteF64),
    reputation o (receive chains blocks) n =
      reputation o' (receive chains (withoutAuthor n blocks)) n := by
  intro hall
  obtain ⟨_, h⟩ := hall
  have hsame := h ∅ [selfPraise.sealed] "node" ⟨.asStored, .asStored⟩ ⟨.asStored, .asStored⟩
  have hown : ownAccepted "node" [selfPraise.sealed] = [selfPraise.sealed] :=
    List.filter_cons_of_pos (by simpa using ⟨hashOk_sealed selfPraise, rfl⟩)
  have htrust : trustTo "node" selfPraise.sealed = 1/2 := FiniteF64.toRat_half
  rw [reputation_own _ ⟨.asStored, .asStored⟩, hown, trustSum_cons, htrust] at hsame
  norm_num [trustSum] at hsame

end Slakshna.Standing

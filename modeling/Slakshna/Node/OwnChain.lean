import Slakshna.Node.Epoch

/-! The chain a node keeps under its own id. Nothing asks a delivered block for proof of its author,
so the chain is the loop's own only as long as no delivery carries that id. -/
namespace Slakshna.Epoch
open LatticeBlock Chains
variable {F : Type}

def Phase.myPrevHash? : Phase F → Option String
  | .tailRead _ _ myPrevHash => some myPrevHash
  | .built _ _ myPrevHash _ _ => some myPrevHash
  | .waiting | .staged _ | .listed _ _ | .trained _ _ => none

def Phase.pending : Phase F → List (LatticeBlock F)
  | .built _ _ _ myProposal evaluations => myProposal :: evaluations
  | .waiting | .staged _ | .listed _ _ | .trained _ _ | .tailRead _ _ _ => []

section Built
variable [LeBytes F] [Sha256] [Zero F]

theorem nodeId_buildEvaluations (cfg : Config) (epochStart : ℕ) (chains : LatticeChains F)
    (ws : List (String × F)) (h : String) :
    ∀ b ∈ buildEvaluations cfg epochStart chains ws h, b.nodeId = cfg.nodeId := by
  intro b hb
  obtain ⟨w, _, p, _, h', rfl⟩ := mem_buildEvaluations hb
  rfl

theorem hashOk_buildEvaluations (cfg : Config) (epochStart : ℕ) (chains : LatticeChains F)
    (ws : List (String × F)) (h : String) :
    ∀ b ∈ buildEvaluations cfg epochStart chains ws h, HashOk b := by
  intro b hb
  obtain ⟨w, _, p, _, h', rfl⟩ := mem_buildEvaluations hb
  exact hashOk_sealed _

theorem linkedFrom_buildEvaluations (cfg : Config) (epochStart : ℕ) (chains : LatticeChains F)
    (ws : List (String × F)) (h : String) :
    LinkedFrom h (buildEvaluations cfg epochStart chains ws h) := by
  induction ws generalizing h with
  | nil => trivial
  | cons w ws ih =>
    rw [buildEvaluations]
    cases latestProposal (chainOf chains w.1) with
    | none => exact ih h
    | some p => exact ⟨rfl, ih _⟩

omit [Zero F] in
theorem nodeId_buildProposal (cfg : Config) (epochStart : ℕ) (h : String)
    (out : Option (MLEngineOutput F)) :
    (buildProposal cfg epochStart h out).nodeId = cfg.nodeId := by
  cases out <;> rfl

omit [Zero F] in
theorem prevHash_buildProposal (cfg : Config) (epochStart : ℕ) (h : String)
    (out : Option (MLEngineOutput F)) : (buildProposal cfg epochStart h out).prevHash = h := by
  cases out <;> rfl

theorem linkedFrom_built (cfg : Config) (epochStart : ℕ) (chains : LatticeChains F)
    (o : IterOrder (String × F)) (h : String) (out : Option (MLEngineOutput F)) :
    LinkedFrom h ((buildProposal cfg epochStart h out :: build cfg epochStart chains o
      (buildProposal cfg epochStart h out) out).filter (fun b => HashOk b)) := by
  cases out with
  | none =>
    by_cases hok : HashOk (buildProposal (F := F) cfg epochStart h none)
    · rw [List.filter_cons_of_pos (by simpa using hok)]
      exact ⟨rfl, trivial⟩
    · rw [List.filter_cons_of_neg (by simpa using hok)]
      trivial
  | some out =>
    have hok : HashOk (buildProposal cfg epochStart h (some out)) := hashOk_sealed _
    have hall : ∀ b ∈ build cfg epochStart chains o (buildProposal cfg epochStart h (some out))
        (some out), HashOk b := hashOk_buildEvaluations cfg epochStart chains _ _
    rw [List.filter_cons_of_pos (by simpa using hok),
      List.filter_eq_self.2 (by simpa using hall)]
    exact ⟨rfl, linkedFrom_buildEvaluations cfg epochStart chains _ _⟩

end Built

section Invariant
variable [LeBytes F] [Sha256] [Zero F]

structure Own (cfg : Config) (s : State F) : Prop where
  chain : chainOf s.chains cfg.nodeId = s.appended
  linked : HashLinked s.appended
  fresh : ∀ h, s.phase.myPrevHash? = some h → h = tailHash s.appended
  pending : ∀ b ∈ s.phase.pending, b.nodeId = cfg.nodeId
  proposal : ∀ h, s.phase.myPrevHash? = some h → ∀ b ∈ s.phase.pending.head?, b.prevHash = h
  links : ∀ h, s.phase.myPrevHash? = some h →
    LinkedFrom h (s.phase.pending.filter (fun b => HashOk b))

def NotOwn (cfg : Config) (_ : State F) : Event F → Prop
  | .deliver block => HashOk block → block.nodeId ≠ cfg.nodeId
  | _ => True

omit [Zero F] in
theorem own_of_no_locals {cfg : Config} {s : State F} (h : Own cfg s) {disk : Disk}
    {phase : Phase F} (hp : phase.myPrevHash? = none) (hb : phase.pending = []) :
    Own cfg { s with disk := disk, phase := phase } where
  chain := h.chain
  linked := h.linked
  fresh := by simp [hp]
  pending := by simp [hb]
  proposal := by simp [hb]
  links := by simp [hp]

theorem own_step {cfg : Config} (s : State F) (e : Event F) (h : Own cfg s)
    (hok : NotOwn cfg s e) : Own cfg (step cfg s e) := by
  have hmove := step_moves cfg s e
  generalize step cfg s e = s' at hmove
  cases hmove with
  | deliver block =>
    have hchain : chainOf (addLatticeBlock s.chains block) cfg.nodeId =
        chainOf s.chains cfg.nodeId := by
      rw [chainOf_add, if_neg (fun hb => hok hb.1 hb.2), List.append_nil]
    exact { h with chain := hchain.trans h.chain }
  | idle => exact h
  | stage epochStart o outcome => exact own_of_no_locals h rfl rfl
  | listPeers o st => exact own_of_no_locals h rfl rfl
  | runEngine reply st pythonArgs => exact own_of_no_locals h rfl rfl
  | readTail st run =>
    refine { h with fresh := ?_, pending := ?_, proposal := ?_, links := ?_ }
    · intro t ht
      rw [← h.chain]
      exact (Option.some.inj ht).symm
    · simp [Phase.pending]
    · simp [Phase.pending]
    · simp [Phase.pending, LinkedFrom]
  | build o st run myPrevHash hphase =>
    refine { h with fresh := ?_, pending := ?_, proposal := ?_, links := ?_ }
    · intro t ht
      exact h.fresh t (by rw [hphase]; exact ht)
    · intro b hb
      cases List.mem_cons.1 hb with
      | inl heq => rw [heq, nodeId_buildProposal]
      | inr hmem =>
        cases hout : run.output with
        | none => simp [build, hout] at hmem
        | some out =>
          rw [hout] at hmem
          exact nodeId_buildEvaluations cfg _ _ _ _ b hmem
    · intro t ht b hb
      obtain rfl : myPrevHash = t := Option.some.inj ht
      rw [← Option.some.inj hb, prevHash_buildProposal]
    · intro t ht
      obtain rfl : myPrevHash = t := Option.some.inj ht
      exact linkedFrom_built cfg _ _ o _ _
  | append st run myPrevHash myProposal evaluations hphase =>
    have hpend : s.phase.pending = myProposal :: evaluations := by rw [hphase]; rfl
    have hprev : s.phase.myPrevHash? = some myPrevHash := by rw [hphase]; rfl
    have hfilter : (myProposal :: evaluations).filter (fun b => HashOk b ∧ b.nodeId = cfg.nodeId) =
        (myProposal :: evaluations).filter (fun b => HashOk b) := by
      apply List.filter_congr
      intro b hb
      simp [h.pending b (hpend ▸ hb)]
    have hlinks := h.links myPrevHash hprev
    rw [h.fresh myPrevHash hprev, hpend] at hlinks
    constructor
    · rw [chainOf_receive, h.chain, hfilter]
    · exact (linkedFrom_append _ _ _).2 ⟨h.linked, hlinks⟩
    · simp [Phase.myPrevHash?]
    · simp [Phase.pending]
    · simp [Phase.pending]
    · simp [Phase.myPrevHash?]

omit [Zero F] in
theorem own_initial (cfg : Config) (disk : Disk) : Own cfg (State.initial disk : State F) where
  chain := rfl
  linked := trivial
  fresh := by simp [State.initial, Phase.myPrevHash?]
  pending := by simp [State.initial, Phase.pending]
  proposal := by simp [State.initial, Phase.pending]
  links := by simp [State.initial, Phase.myPrevHash?]

/-- While no accepted delivery carries the node's id, its chain is what the loop appended, the tail
hash the loop holds is still that of the tail, and the Proposal built from it continues the chain. -/
theorem own_chain (cfg : Config) (disk : Disk) (events : List (Event F))
    (h : Run.Along (step cfg) (NotOwn cfg) (State.initial disk) events) :
    let s := Run.exec (step cfg) (State.initial disk) events
    chainOf s.chains cfg.nodeId = s.appended ∧ HashLinked (chainOf s.chains cfg.nodeId) ∧
    (∀ myPrevHash, s.phase.myPrevHash? = some myPrevHash →
      myPrevHash = tailHash (chainOf s.chains cfg.nodeId) ∧
      ∀ myProposal ∈ s.phase.pending.head?, myProposal.prevHash = myPrevHash) := by
  intro s
  have hown : Own cfg s := Run.invariant own_step (own_initial cfg disk) h
  rw [hown.chain]
  exact ⟨rfl, hown.linked, fun t ht => ⟨hown.fresh t ht, hown.proposal t ht⟩⟩

end Invariant

def sampleConfig : Config := ⟨"node", "./data-node1", "data_node"⟩

/-! An epoch that scores a peer, with the digests SHA-256 has on its blocks. The block of the peer is
delivered again once the tail was read. -/

def sampleProposal : LatticeBlock FiniteF64 :=
  ⟨"node", genesisHash, .proposal "m" "d", "node_signature_600", ""⟩

def sampleEvaluation : LatticeBlock FiniteF64 :=
  ⟨"node", "4808dbc9f35d37aaad1414bb9ac57fdcdd388e4b2e226e6acd6e3a474a9e4a19", .evaluation "peer"
    "7778f2817687344097a7cfe5ef08d998fb5f1dd78abcef9a95b7757165b8eb70" 0 .half, "eval_sig_600", ""⟩

def epochDigests : List (Bytes × Bytes) := [
  (samplePayload.preimage, [119, 120, 242, 129, 118, 135, 52, 64, 151, 167, 207, 229, 239, 8, 217,
    152, 251, 95, 29, 215, 138, 188, 239, 154, 149, 183, 117, 113, 101, 184, 235, 112]),
  (sampleProposal.preimage, [72, 8, 219, 201, 243, 93, 55, 170, 173, 20, 20, 187, 154, 197, 127, 220,
    221, 56, 142, 75, 46, 34, 110, 106, 205, 110, 58, 71, 74, 158, 74, 25]),
  (sampleEvaluation.preimage, [19, 1, 125, 241, 144, 32, 27, 240, 92, 54, 226, 56, 63, 247, 82, 7, 81,
    61, 186, 103, 42, 42, 199, 87, 155, 171, 198, 98, 77, 179, 244, 3])]

def sampleEpochEvents [Sha256] : List (Event FiniteF64) :=
  [.deliver samplePayload.sealed, .stage 600 .asStored (fun _ => .done), .listPeers .asStored,
    .runEngine (some ⟨fun _ => .half, fun _ => true, "m", "d"⟩), .readTail,
    .deliver samplePayload.sealed, .build .asStored, .append]

theorem own_chain_sample :
    letI := Sha256.ofValues epochDigests
    let s := Run.exec (step sampleConfig) (State.initial (fun _ => none)) sampleEpochEvents
    chainOf s.chains "node" = s.appended ∧ HashLinked (chainOf s.chains "node") ∧
    (∀ myPrevHash, s.phase.myPrevHash? = some myPrevHash →
      myPrevHash = tailHash (chainOf s.chains "node") ∧
      ∀ myProposal ∈ s.phase.pending.head?, myProposal.prevHash = myPrevHash) := by
  let := Sha256.ofValues epochDigests
  exact own_chain sampleConfig (fun _ => none) sampleEpochEvents
    ⟨fun _ => by decide, trivial, trivial, trivial, trivial, fun _ => by decide, trivial, trivial,
      trivial⟩

/-- Anyone can put a block into the chain of a node. -/
theorem own_chain_forged : ¬ ∃ _ : Sha256, ∀ (cfg : Config) (disk : Disk)
    (events : List (Event F64)),
    let s := Run.exec (step cfg) (State.initial disk) events
    ∀ b ∈ chainOf s.chains cfg.nodeId, b ∈ s.appended := by
  intro hall
  obtain ⟨_, h⟩ := hall
  have hmem := h sampleConfig (fun _ => none) [.deliver unlinkedBlock.sealed] unlinkedBlock.sealed
  have hchain : chainOf (addLatticeBlock ∅ unlinkedBlock.sealed) "node" = [unlinkedBlock.sealed] :=
    chainOf_add_sealed unlinkedBlock "node"
  have hforged := hmem (hchain ▸ List.mem_singleton.2 rfl)
  exact absurd hforged (List.not_mem_nil)

end Slakshna.Epoch

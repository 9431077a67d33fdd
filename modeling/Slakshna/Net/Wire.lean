import Slakshna.Lib.Json
import Slakshna.Chain.Lattice

/-! Lattice blocks on the wire. A block travels as the JSON of a `NewLatticeBlock` message and is
hashed again on arrival, bit for bit, after its numbers went through decimal text. -/
namespace Slakshna.Wire
open LatticeBlock Chains
variable {N : Type} (c : F64Codec N)

def encodeBlockType : LatticeBlockType F64 → Json N
  | .proposal payloadHash compressedDelta =>
    .obj [("Proposal", .obj [("payload_hash", .str payloadHash),
      ("compressed_delta", .str compressedDelta)])]
  | .evaluation targetNode proposalHash lossDrop trustScore =>
    .obj [("Evaluation", .obj [("target_node", .str targetNode),
      ("proposal_hash", .str proposalHash), ("loss_drop", c.encode lossDrop),
      ("trust_score", c.encode trustScore)])]

def decodeProposal (j : Json N) : Option (LatticeBlockType F64) := do
  let payloadHash ← j.strField? "payload_hash"
  let compressedDelta ← j.strField? "compressed_delta"
  return .proposal payloadHash compressedDelta

def decodeEvaluation (j : Json N) : Option (LatticeBlockType F64) := do
  let targetNode ← j.strField? "target_node"
  let proposalHash ← j.strField? "proposal_hash"
  let lossDrop ← (j.field? "loss_drop").bind c.decode
  let trustScore ← (j.field? "trust_score").bind c.decode
  return .evaluation targetNode proposalHash lossDrop trustScore

/-- The variant is the one key of the object. -/
def decodeBlockType : Json N → Option (LatticeBlockType F64)
  | .obj [(variant, content)] =>
    if variant = "Proposal" then decodeProposal content
    else if variant = "Evaluation" then decodeEvaluation c content
    else none
  | _ => none

def encodeBlock (b : LatticeBlock F64) : Json N :=
  .obj [("node_id", .str b.nodeId), ("prev_hash", .str b.prevHash),
    ("block_type", encodeBlockType c b.blockType), ("signature", .str b.signature),
    ("hash", .str b.hash)]

def decodeBlock (j : Json N) : Option (LatticeBlock F64) := do
  let nodeId ← j.strField? "node_id"
  let prevHash ← j.strField? "prev_hash"
  let blockType ← (j.field? "block_type").bind (decodeBlockType c)
  let signature ← j.strField? "signature"
  let hash ← j.strField? "hash"
  return ⟨nodeId, prevHash, blockType, signature, hash⟩

def encodeNewLatticeBlock (b : LatticeBlock F64) : Json N :=
  .obj [("type", .str "NewLatticeBlock"), ("data", encodeBlock c b)]

def decodeNewLatticeBlock (j : Json N) : Option (LatticeBlock F64) := do
  let tag ← j.strField? "type"
  if tag = "NewLatticeBlock" then (j.field? "data").bind (decodeBlock c) else none

def numbers : LatticeBlockType F64 → List F64
  | .proposal _ _ => []
  | .evaluation _ _ lossDrop trustScore => [lossDrop, trustScore]

theorem decodeNew_encodeNew (b : LatticeBlock F64) :
    decodeNewLatticeBlock c (encodeNewLatticeBlock c b) =
      (decodeBlockType c (encodeBlockType c b.blockType)).map
        (fun t => { b with blockType := t }) := by
  simp [decodeNewLatticeBlock, encodeNewLatticeBlock, Json.strField?, Json.field?, Json.str?,
    decodeBlock, encodeBlock, Option.map_eq_bind]

theorem decodeType_proposal (payloadHash compressedDelta : String) :
    decodeBlockType c (encodeBlockType c (.proposal payloadHash compressedDelta)) =
      some (.proposal payloadHash compressedDelta) := by
  simp [decodeBlockType, encodeBlockType, decodeProposal, Json.strField?, Json.field?, Json.str?]

theorem decodeType_evaluation (targetNode proposalHash : String) (lossDrop trustScore : F64) :
    decodeBlockType c (encodeBlockType c
      (.evaluation targetNode proposalHash lossDrop trustScore)) =
      (c.decode (c.encode lossDrop)).bind fun l => (c.decode (c.encode trustScore)).bind fun s =>
        some (.evaluation targetNode proposalHash l s) := by
  simp [decodeBlockType, encodeBlockType, decodeEvaluation, Json.strField?, Json.field?, Json.str?]

theorem firstField_decoded {t u : LatticeBlockType F64}
    (h : decodeBlockType c (encodeBlockType c t) = some u) : firstField u = firstField t := by
  cases t with
  | proposal p d =>
    rw [decodeType_proposal] at h
    rw [← Option.some.inj h]
  | evaluation t q l s =>
    rw [decodeType_evaluation] at h
    obtain ⟨l', _, h⟩ := Option.bind_eq_some_iff.1 h
    obtain ⟨s', _, h⟩ := Option.bind_eq_some_iff.1 h
    rw [← Option.some.inj h]
    rfl

theorem decodeType_same_iff (t : LatticeBlockType F64) :
    decodeBlockType c (encodeBlockType c t) = some t ↔ ∀ x ∈ numbers t, c.Survives x := by
  cases t with
  | proposal p d => simp [decodeType_proposal, numbers]
  | evaluation t q l s =>
    rw [decodeType_evaluation]
    simp only [numbers, List.mem_cons, List.not_mem_nil, or_false, forall_eq_or_imp, forall_eq,
      ← F64Codec.decode_encode_iff]
    constructor
    · intro h
      obtain ⟨l', hl, h⟩ := Option.bind_eq_some_iff.1 h
      obtain ⟨s', hs, h⟩ := Option.bind_eq_some_iff.1 h
      have hsame := Option.some.inj h
      simp only [LatticeBlockType.evaluation.injEq, true_and] at hsame
      exact ⟨hsame.1 ▸ hl, hsame.2 ▸ hs⟩
    · intro h
      rw [h.1, h.2]
      rfl

section Acceptance
variable [Sha256]

def receiveMessage (chains : LatticeChains F64) (j : Json N) : LatticeChains F64 :=
  match decodeNewLatticeBlock c j with
  | some block => addLatticeBlock chains block
  | none => chains

def AcceptedByPeer (b : LatticeBlock F64) : Prop :=
  ∃ b', decodeNewLatticeBlock c (encodeNewLatticeBlock c b) = some b' ∧ HashOk b'

theorem receiveMessage_of_not_accepted {b : LatticeBlock F64} (h : ¬ AcceptedByPeer c b)
    (chains : LatticeChains F64) :
    receiveMessage c chains (encodeNewLatticeBlock c b) = chains := by
  unfold receiveMessage
  cases hb : decodeNewLatticeBlock c (encodeNewLatticeBlock c b) with
  | none => rfl
  | some b' => exact add_of_not_hashOk chains (fun hok => h ⟨b', hb, hok⟩)

theorem decodeType_of_accepted (hsha : Function.Injective Sha256.digest) {b : LatticeBlock F64}
    (hok : HashOk b) (h : AcceptedByPeer c b) :
    decodeBlockType c (encodeBlockType c b.blockType) = some b.blockType := by
  obtain ⟨b', hb', hok'⟩ := h
  rw [decodeNew_encodeNew] at hb'
  obtain ⟨t, ht, rfl⟩ := Option.map_eq_some_iff.1 hb'
  have hhash : b.calculateHash = calculateHash { b with blockType := t } := hok.symm.trans hok'
  have hcuts : cuts b = cuts { b with blockType := t } := by
    simp [cuts, firstField_decoded c ht]
  have hsame := sameContent_of_preimage_eq ((calculateHash_eq_iff hsha _ _).1 hhash) hcuts
  rw [ht, hsame.2.2]

/-- A block that passes the check where it was made passes it at a peer exactly when each of its
numbers is finite and read back with the same bits. -/
theorem acceptedByPeer_iff (hsha : Function.Injective Sha256.digest) (b : LatticeBlock F64)
    (hok : HashOk b) : AcceptedByPeer c b ↔ ∀ x ∈ numbers b.blockType, c.Survives x := by
  rw [← decodeType_same_iff]
  constructor
  · exact decodeType_of_accepted c hsha hok
  · intro h
    exact ⟨b, by rw [decodeNew_encodeNew, h]; rfl, hok⟩

end Acceptance

def sentJudgement : LatticeBlock F64 := ⟨"node", genesisHash, .evaluation "peer"
  "7778f2817687344097a7cfe5ef08d998fb5f1dd78abcef9a95b7757165b8eb70" 0 ⟨0x3FE0000000000000⟩, "", ""⟩

theorem acceptedByPeer_sample :
    letI := sampleDigest
    AcceptedByPeer F64Codec.exact sentJudgement.sealed ↔
      ∀ x ∈ numbers sentJudgement.blockType, F64Codec.exact.Survives x :=
  letI := sampleDigest
  acceptedByPeer_iff F64Codec.exact sampleDigest_injective sentJudgement.sealed (hashOk_sealed _)

/-- The trust score 2.2836867685782638e-7, printed with these digits, is read as its upper
neighbour. -/
def driftingScore : F64 := ⟨0x3E8EA6B020000001⟩

def driftingCodec : F64Codec F64 :=
  F64Codec.drifting driftingScore ⟨0x3E8EA6B020000002⟩ (by decide)

def driftingBlock : LatticeBlock F64 :=
  ⟨"node", genesisHash, .evaluation "peer" "" 0 driftingScore, "", ""⟩

/-- Whatever the digest, a codec within its promise makes a peer refuse an honest evaluation. -/
theorem acceptedByPeer_drifts : ¬ ∃ _ : Sha256, Function.Injective Sha256.digest ∧
    ∀ (c : F64Codec F64) (b : LatticeBlock F64), HashOk b → AcceptedByPeer c b := by
  intro hall
  obtain ⟨_, hsha, h⟩ := hall
  have haccepted := h driftingCodec driftingBlock.sealed (hashOk_sealed _)
  have hsame := decodeType_of_accepted driftingCodec hsha (hashOk_sealed _) haccepted
  have hscore : driftingScore ∈ numbers driftingBlock.sealed.blockType :=
    List.mem_cons_of_mem _ List.mem_cons_self
  have hsurvives := (decodeType_same_iff driftingCodec _).1 hsame driftingScore hscore
  exact absurd hsurvives.2 (by decide)

end Slakshna.Wire

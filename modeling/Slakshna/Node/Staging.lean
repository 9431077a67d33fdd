import Slakshna.Node.OwnChain

/-! Where the staged deltas go. The file name is the peer id as it came over the network, so an id
with a slash in it is a path. -/
namespace Slakshna.Epoch
open LatticeBlock Chains
variable {F : Type}

theorem mem_stagedDeltas (cfg : Config) (chains : LatticeChains F)
    (o : IterOrder (String × List (LatticeBlock F))) (d : StagedDelta F) :
    d ∈ stagedDeltas cfg chains o ↔
      d.peer ≠ cfg.nodeId ∧ latestProposal (chainOf chains d.peer) = some d.proposal := by
  rw [stagedDeltas, List.mem_filterMap]
  constructor
  · intro h
    obtain ⟨⟨peer, chain⟩, hentry, hd⟩ := h
    have hlook := (HashMap.mem_iter_iff chains o _).1 hentry
    by_cases hme : peer = cfg.nodeId
    · simp [stagedDelta?, hme] at hd
    · rw [stagedDelta?, if_neg hme] at hd
      obtain ⟨p, hp, rfl⟩ := Option.map_eq_some_iff.1 hd
      exact ⟨hme, by simpa [chainOf, hlook] using hp⟩
  · intro h
    obtain ⟨hme, hp⟩ := h
    cases hlook : chains.lookup d.peer with
    | none => simp [chainOf, hlook, latestProposal] at hp
    | some chain =>
      refine ⟨(d.peer, chain), (HashMap.mem_iter_iff chains o _).2 hlook, ?_⟩
      have hp' : latestProposal chain = some d.proposal := by
        simpa [chainOf, hlook] using hp
      simp [stagedDelta?, hme, hp']

theorem latestProposal_isSome (chain : List (LatticeBlock F)) :
    (latestProposal chain).isSome ↔ ∃ b ∈ chain, (proposal? b).isSome := by
  simp [latestProposal, List.findSome?_isSome_iff]

theorem isName_deltaFile (peer : String) :
    Path.IsName (Path.lastPart peer.toList ++ "_delta.b64".toList) := by
  have hlen : 10 ≤ (Path.lastPart peer.toList ++ "_delta.b64".toList).length := by
    rw [List.length_append]
    exact Nat.le_add_left _ _
  refine ⟨?_, ?_, ?_, ?_⟩
  · intro hmem
    cases List.mem_append.1 hmem with
    | inl h => exact Path.not_mem_lastPart _ h
    | inr h => exact absurd h (by decide)
  all_goals
    intro he
    rw [he] at hlen
    exact absurd hlen (by decide)

theorem normalise_deltaPath (cfg : Config) (peer : String) :
    Path.normalise (deltaPath cfg peer) =
      { Path.normalise (peerDeltasDir cfg) with
        parts := Path.walk (Path.normalise (peerDeltasDir cfg)) peer.toList ++
          [Path.lastPart peer.toList ++ "_delta.b64".toList] } := by
  rw [deltaPath, Path.normalise_cut (by simp [peerDeltasDir]), deltaFile,
    Path.follow_append (by decide) (isName_deltaFile peer)]

def LeadsBack (cfg : Config) (peer : String) : Prop :=
  Path.walk (Path.normalise (peerDeltasDir cfg)) peer.toList =
    (Path.normalise (peerDeltasDir cfg)).parts

theorem directlyInside_iff (cfg : Config) (peer : String) :
    Path.DirectlyInside (Path.normalise (deltaPath cfg peer)) (Path.normalise (peerDeltasDir cfg)) ↔
      LeadsBack cfg peer := by
  rw [normalise_deltaPath]
  constructor
  · intro h
    obtain ⟨name, hname⟩ := h
    exact (List.append_inj' (congrArg Path.parts hname) rfl).1
  · intro h
    exact ⟨_, by rw [h]⟩

theorem deltaPath_eq_iff {cfg : Config} {p q : String} (hp : LeadsBack cfg p)
    (hq : LeadsBack cfg q) :
    Path.normalise (deltaPath cfg p) = Path.normalise (deltaPath cfg q) ↔
      Path.lastPart p.toList = Path.lastPart q.toList := by
  rw [normalise_deltaPath, normalise_deltaPath, hp, hq]
  simp

theorem leadsBack_of_no_slash (cfg : Config) {peer : String} (h : '/' ∉ peer.toList) :
    LeadsBack cfg peer := by
  rw [LeadsBack, Path.walk, Path.initParts_of_not_mem h]
  rfl

theorem deltaPath_injective {cfg : Config} {p q : String} (hp : '/' ∉ p.toList)
    (hq : '/' ∉ q.toList)
    (h : Path.normalise (deltaPath cfg p) = Path.normalise (deltaPath cfg q)) : p = q := by
  have hlast := (deltaPath_eq_iff (leadsBack_of_no_slash cfg hp) (leadsBack_of_no_slash cfg hq)).1 h
  rw [Path.lastPart_of_not_mem hp, Path.lastPart_of_not_mem hq] at hlast
  exact String.toList_inj.1 hlast

/-- Every file a staging pass writes lies in the directory of deltas, and no two peers share one. -/
def StagedSafely (cfg : Config) (chains : LatticeChains F) : Prop :=
  ∀ o, (∀ d ∈ stagedDeltas cfg chains o, Path.DirectlyInside
      (Path.normalise (deltaPath cfg d.peer)) (Path.normalise (peerDeltasDir cfg))) ∧
    ∀ d ∈ stagedDeltas cfg chains o, ∀ e ∈ stagedDeltas cfg chains o, d.peer ≠ e.peer →
      Path.normalise (deltaPath cfg d.peer) ≠ Path.normalise (deltaPath cfg e.peer)

section Reachable
variable [LeBytes F] [Sha256]

def Proposer (cfg : Config) (blocks : List (LatticeBlock F)) (peer : String) : Prop :=
  peer ≠ cfg.nodeId ∧ ∃ b ∈ blocks, HashOk b ∧ (proposal? b).isSome ∧ b.nodeId = peer

theorem staged_iff_proposer (cfg : Config) (blocks : List (LatticeBlock F))
    (o : IterOrder (String × List (LatticeBlock F))) (peer : String) :
    (∃ d ∈ stagedDeltas cfg (receive ∅ blocks) o, d.peer = peer) ↔ Proposer cfg blocks peer := by
  have hchain : chainOf (receive ∅ blocks) peer =
      blocks.filter (fun b => HashOk b ∧ b.nodeId = peer) := by
    rw [chainOf_receive, chainOf_empty, List.nil_append]
  have hsome := latestProposal_isSome (chainOf (receive ∅ blocks) peer)
  rw [hchain] at hsome
  constructor
  · intro h
    obtain ⟨d, hd, rfl⟩ := h
    obtain ⟨hme, hp⟩ := (mem_stagedDeltas cfg _ o d).1 hd
    rw [hchain] at hp
    obtain ⟨b, hb, hprop⟩ := hsome.1 (by rw [hp]; rfl)
    obtain ⟨hb, hok⟩ := List.mem_filter.1 hb
    have hok := of_decide_eq_true hok
    exact ⟨hme, b, hb, hok.1, hprop, hok.2⟩
  · intro h
    obtain ⟨hme, b, hb, hok, hprop, hid⟩ := h
    have hfound := hsome.2 ⟨b, List.mem_filter.2 ⟨hb, decide_eq_true ⟨hok, hid⟩⟩, hprop⟩
    obtain ⟨p, hp⟩ := Option.isSome_iff_exists.1 hfound
    exact ⟨⟨peer, p⟩, (mem_stagedDeltas cfg _ o _).2 ⟨hme, by rw [hchain]; exact hp⟩, rfl⟩

theorem stagedSafely_iff (cfg : Config) (blocks : List (LatticeBlock F)) :
    StagedSafely cfg (receive ∅ blocks) ↔
      (∀ p, Proposer cfg blocks p → LeadsBack cfg p) ∧
      ∀ p q, Proposer cfg blocks p → Proposer cfg blocks q → p ≠ q →
        Path.lastPart p.toList ≠ Path.lastPart q.toList := by
  constructor
  · intro h
    obtain ⟨hin, hdiff⟩ := h .asStored
    have hback : ∀ p, Proposer cfg blocks p → LeadsBack cfg p := by
      intro p hp
      obtain ⟨d, hd, rfl⟩ := (staged_iff_proposer cfg blocks .asStored p).2 hp
      exact (directlyInside_iff cfg d.peer).1 (hin d hd)
    refine ⟨hback, ?_⟩
    intro p q hp hq hpq hlast
    obtain ⟨d, hd, rfl⟩ := (staged_iff_proposer cfg blocks .asStored p).2 hp
    obtain ⟨e, he, rfl⟩ := (staged_iff_proposer cfg blocks .asStored q).2 hq
    exact hdiff d hd e he hpq ((deltaPath_eq_iff (hback _ hp) (hback _ hq)).2 hlast)
  · intro h o
    obtain ⟨hback, hlast⟩ := h
    refine ⟨?_, ?_⟩
    · intro d hd
      have hp := (staged_iff_proposer cfg blocks o d.peer).1 ⟨d, hd, rfl⟩
      exact (directlyInside_iff cfg d.peer).2 (hback _ hp)
    · intro d hd e he hde hpath
      have hp := (staged_iff_proposer cfg blocks o d.peer).1 ⟨d, hd, rfl⟩
      have hq := (staged_iff_proposer cfg blocks o e.peer).1 ⟨e, he, rfl⟩
      exact hlast _ _ hp hq hde ((deltaPath_eq_iff (hback _ hp) (hback _ hq)).1 hpath)

/-- Staging is safe exactly when every proposer's id leads back to the directory of deltas before
its last component, and no two ids have the same last component; ids without a slash are safe. -/
theorem receive_stagedSafely (cfg : Config) (blocks : List (LatticeBlock F)) :
    (StagedSafely cfg (receive ∅ blocks) ↔
      (∀ p, Proposer cfg blocks p → LeadsBack cfg p) ∧
      ∀ p q, Proposer cfg blocks p → Proposer cfg blocks q → p ≠ q →
        Path.lastPart p.toList ≠ Path.lastPart q.toList) ∧
    ((∀ p, Proposer cfg blocks p → '/' ∉ p.toList) → StagedSafely cfg (receive ∅ blocks)) := by
  refine ⟨stagedSafely_iff cfg blocks, ?_⟩
  intro hslash o
  have hplain : ∀ d ∈ stagedDeltas cfg (receive ∅ blocks) o, '/' ∉ d.peer.toList := by
    intro d hd
    exact hslash _ ((staged_iff_proposer cfg blocks o d.peer).1 ⟨d, hd, rfl⟩)
  refine ⟨?_, ?_⟩
  · intro d hd
    exact (directlyInside_iff cfg d.peer).2 (leadsBack_of_no_slash cfg (hplain d hd))
  · intro d hd e he hde hpath
    exact hde (deltaPath_injective (hplain d hd) (hplain e he) hpath)

end Reachable

def climbingBlock : LatticeBlock F64 := ⟨"../node", genesisHash, .proposal "" "", "", ""⟩

/-- A peer that calls itself "../node" has its delta written beside the directory of deltas. -/
theorem stagedSafely_climbing : ¬ ∃ _ : Sha256, ∀ (cfg : Config) (blocks : List (LatticeBlock F64)),
    StagedSafely cfg (receive ∅ blocks) := by
  intro hall
  obtain ⟨_, h⟩ := hall
  have hback := ((stagedSafely_iff sampleConfig [climbingBlock.sealed]).1 (h _ _)).1 "../node"
  have hproposer : Proposer sampleConfig [climbingBlock.sealed] "../node" :=
    ⟨by decide, _, List.mem_singleton.2 rfl, hashOk_sealed climbingBlock, rfl, rfl⟩
  have hout : ¬ LeadsBack sampleConfig "../node" := by
    unfold LeadsBack
    decide
  exact hout (hback hproposer)

end Slakshna.Epoch

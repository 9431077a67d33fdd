import Slakshna.Lib.Path
import Slakshna.Chain.Lattice

/-! A node's epoch loop beside its gossip task. Each lock the loop takes is one step; a delivery can
fall between any two of them. What the loop staged, scored and appended is kept for the proofs. -/
namespace Slakshna.Epoch
open LatticeBlock Chains
variable {F : Type}

/-- `fallbackDir` is where the engine looks when it is given no data directory. -/
structure Config where
  nodeId : String
  dataDir : String
  fallbackDir : String

structure ProposalBlock (F : Type) where
  block : LatticeBlock F
  payloadHash : String
  compressedDelta : String
  isProposal : block.blockType = .proposal payloadHash compressedDelta

def proposal? (b : LatticeBlock F) : Option (ProposalBlock F) :=
  match h : b.blockType with
  | .proposal payloadHash compressedDelta => some ⟨b, payloadHash, compressedDelta, h⟩
  | .evaluation _ _ _ _ => none

def latestProposal (chain : List (LatticeBlock F)) : Option (ProposalBlock F) :=
  chain.reverse.findSome? proposal?

structure StagedDelta (F : Type) where
  peer : String
  proposal : ProposalBlock F

def stagedDelta? (cfg : Config) (entry : String × List (LatticeBlock F)) :
    Option (StagedDelta F) :=
  if entry.1 = cfg.nodeId then none
  else (latestProposal entry.2).map (fun p => ⟨entry.1, p⟩)

def stagedDeltas (cfg : Config) (chains : LatticeChains F)
    (o : IterOrder (String × List (LatticeBlock F))) : List (StagedDelta F) :=
  (chains.iter o).filterMap (stagedDelta? cfg)

def peerDeltasDir (cfg : Config) : List Char := cfg.dataDir.toList ++ '/' :: "network_deltas".toList

def deltaFile (peer : String) : List Char := peer.toList ++ "_delta.b64".toList

def deltaPath (cfg : Config) (peer : String) : List Char :=
  peerDeltasDir cfg ++ '/' :: deltaFile peer

def nDeltaPath (cfg : Config) (peer : String) : List Char :=
  let rustDataDir := if cfg.dataDir = "" then cfg.fallbackDir else cfg.dataDir
  Path.join (Path.join rustDataDir.toList "network_deltas".toList) (deltaFile peer)

/-- A failed write may leave anything in the file. -/
inductive WriteOutcome where
  | done
  | failed (left : Option String)
  deriving DecidableEq

def write (disk : Disk) (p : Path) (content : String) : WriteOutcome → Disk
  | .done => Function.update disk p (some content)
  | .failed left => Function.update disk p left

def stage (cfg : Config) (outcome : String → WriteOutcome) (disk : Disk)
    (deltas : List (StagedDelta F)) : Disk :=
  deltas.foldl (fun disk d =>
    write disk (Path.normalise (deltaPath cfg d.peer)) d.proposal.compressedDelta
      (outcome d.peer)) disk

structure MLEngineOutput (F : Type) where
  weights : HashMap String F
  modelHash : String
  compressedDelta : String

structure EngineReply (F : Type) where
  weightOf : String → F
  loads : String → Bool
  modelHash : String
  compressedDelta : String

def weights (cfg : Config) (pythonArgs : List String) (weightOf : String → F) : HashMap String F :=
  (cfg.nodeId :: pythonArgs).foldl (fun w j => w.insert j (weightOf j)) ∅

structure Staging (F : Type) where
  epochStart : ℕ
  deltas : List (StagedDelta F)

structure EngineRun (F : Type) where
  pythonArgs : List String
  scored : String → Option String
  output : Option (MLEngineOutput F)

def runEngine (cfg : Config) (disk : Disk) (pythonArgs : List String) :
    Option (EngineReply F) → EngineRun F
  | none => ⟨pythonArgs, fun _ => none, none⟩
  | some r => {
      pythonArgs := pythonArgs
      scored := fun j => if r.loads j then disk (Path.normalise (nDeltaPath cfg j)) else none
      output := some ⟨weights cfg pythonArgs r.weightOf, r.modelHash, r.compressedDelta⟩ }

section Build
variable [LeBytes F] [Sha256] [Zero F]

def evalBlock (cfg : Config) (epochStart : ℕ) (currentTailHash peer proposalHash : String)
    (weight : F) : LatticeBlock F :=
  sealed ⟨cfg.nodeId, currentTailHash, .evaluation peer proposalHash 0 weight,
    "eval_sig_" ++ toString epochStart, ""⟩

def buildEvaluations (cfg : Config) (epochStart : ℕ) (chains : LatticeChains F) :
    List (String × F) → String → List (LatticeBlock F)
  | [], _ => []
  | (peer, weight) :: rest, currentTailHash =>
    match latestProposal (chainOf chains peer) with
    | none => buildEvaluations cfg epochStart chains rest currentTailHash
    | some p =>
      let block := evalBlock cfg epochStart currentTailHash peer p.block.hash weight
      block :: buildEvaluations cfg epochStart chains rest block.hash

omit [LeBytes F] [Sha256] [Zero F] in
def unsealedProposal (cfg : Config) (epochStart : ℕ) (myPrevHash : String)
    (blockType : LatticeBlockType F) : LatticeBlock F :=
  ⟨cfg.nodeId, myPrevHash, blockType, "node_signature_" ++ toString epochStart, ""⟩

/-- After a failed run the Proposal keeps its empty hash. -/
def buildProposal (cfg : Config) (epochStart : ℕ) (myPrevHash : String) :
    Option (MLEngineOutput F) → LatticeBlock F
  | none => unsealedProposal cfg epochStart myPrevHash (.proposal "error_hash" "")
  | some out =>
    (unsealedProposal cfg epochStart myPrevHash (.proposal out.modelHash out.compressedDelta)).sealed

def build (cfg : Config) (epochStart : ℕ) (chains : LatticeChains F) (o : IterOrder (String × F))
    (myProposal : LatticeBlock F) : Option (MLEngineOutput F) → List (LatticeBlock F)
  | none => []
  | some out => buildEvaluations cfg epochStart chains (out.weights.iter o) myProposal.hash

end Build

inductive Phase (F : Type) where
  | waiting
  | staged (st : Staging F)
  | listed (st : Staging F) (pythonArgs : List String)
  | trained (st : Staging F) (run : EngineRun F)
  | tailRead (st : Staging F) (run : EngineRun F) (myPrevHash : String)
  | built (st : Staging F) (run : EngineRun F) (myPrevHash : String)
      (myProposal : LatticeBlock F) (evaluations : List (LatticeBlock F))

structure State (F : Type) where
  chains : LatticeChains F
  disk : Disk
  phase : Phase F
  appended : List (LatticeBlock F)

def State.initial (disk : Disk) : State F := ⟨∅, disk, .waiting, []⟩

inductive Event (F : Type) where
  | deliver (block : LatticeBlock F)
  | stage (epochStart : ℕ) (o : IterOrder (String × List (LatticeBlock F)))
      (outcome : String → WriteOutcome)
  | listPeers (o : IterOrder (String × List (LatticeBlock F)))
  | runEngine (reply : Option (EngineReply F))
  | readTail
  | build (o : IterOrder (String × F))
  | append

section Step
variable [LeBytes F] [Sha256] [Zero F]

/-- A step the loop is not at leaves the state as it is. -/
def step (cfg : Config) (s : State F) : Event F → State F
  | .deliver block => { s with chains := addLatticeBlock s.chains block }
  | .stage epochStart o outcome =>
    match s.phase with
    | .waiting =>
      let deltas := stagedDeltas cfg s.chains o
      { s with
        disk := stage cfg outcome s.disk deltas
        phase := .staged ⟨epochStart, deltas.filter (fun d => outcome d.peer = .done)⟩ }
    | _ => s
  | .listPeers o =>
    match s.phase with
    | .staged st =>
      { s with phase := .listed st (((s.chains.iter o).map Prod.fst).filter (· ≠ cfg.nodeId)) }
    | _ => s
  | .runEngine reply =>
    match s.phase with
    | .listed st pythonArgs =>
      { s with phase := .trained st (runEngine cfg s.disk pythonArgs reply) }
    | _ => s
  | .readTail =>
    match s.phase with
    | .trained st run =>
      { s with phase := .tailRead st run (tailHash (chainOf s.chains cfg.nodeId)) }
    | _ => s
  | .build o =>
    match s.phase with
    | .tailRead st run myPrevHash =>
      let myProposal := buildProposal cfg st.epochStart myPrevHash run.output
      let evaluations := build cfg st.epochStart s.chains o myProposal run.output
      { s with phase := .built st run myPrevHash myProposal evaluations }
    | _ => s
  | .append =>
    match s.phase with
    | .built _ _ _ myProposal evaluations =>
      { s with
        chains := receive s.chains (myProposal :: evaluations)
        phase := .waiting
        appended := s.appended ++ (myProposal :: evaluations).filter (fun b => HashOk b) }
    | _ => s

inductive Moves (cfg : Config) : State F → Event F → State F → Prop where
  | deliver (s : State F) (block : LatticeBlock F) :
      Moves cfg s (.deliver block) { s with chains := addLatticeBlock s.chains block }
  | idle (s : State F) (e : Event F) : Moves cfg s e s
  | stage (s : State F) (epochStart : ℕ) (o : IterOrder (String × List (LatticeBlock F)))
      (outcome : String → WriteOutcome) (h : s.phase = .waiting) :
      Moves cfg s (.stage epochStart o outcome)
        { s with
          disk := stage cfg outcome s.disk (stagedDeltas cfg s.chains o)
          phase := .staged ⟨epochStart,
            (stagedDeltas cfg s.chains o).filter (fun d => outcome d.peer = .done)⟩ }
  | listPeers (s : State F) (o : IterOrder (String × List (LatticeBlock F))) (st : Staging F)
      (h : s.phase = .staged st) :
      Moves cfg s (.listPeers o)
        { s with phase := .listed st (((s.chains.iter o).map Prod.fst).filter (· ≠ cfg.nodeId)) }
  | runEngine (s : State F) (reply : Option (EngineReply F)) (st : Staging F)
      (pythonArgs : List String) (h : s.phase = .listed st pythonArgs) :
      Moves cfg s (.runEngine reply)
        { s with phase := .trained st (runEngine cfg s.disk pythonArgs reply) }
  | readTail (s : State F) (st : Staging F) (run : EngineRun F) (h : s.phase = .trained st run) :
      Moves cfg s .readTail
        { s with phase := .tailRead st run (tailHash (chainOf s.chains cfg.nodeId)) }
  | build (s : State F) (o : IterOrder (String × F)) (st : Staging F) (run : EngineRun F)
      (myPrevHash : String) (h : s.phase = .tailRead st run myPrevHash) :
      Moves cfg s (.build o)
        { s with
          phase :=
            .built st run myPrevHash (buildProposal cfg st.epochStart myPrevHash run.output)
              (build cfg st.epochStart s.chains o
                (buildProposal cfg st.epochStart myPrevHash run.output) run.output) }
  | append (s : State F) (st : Staging F) (run : EngineRun F) (myPrevHash : String)
      (myProposal : LatticeBlock F) (evaluations : List (LatticeBlock F))
      (h : s.phase = .built st run myPrevHash myProposal evaluations) :
      Moves cfg s .append
        { s with
          chains := receive s.chains (myProposal :: evaluations)
          phase := .waiting
          appended := s.appended ++ (myProposal :: evaluations).filter (fun b => HashOk b) }

theorem step_moves (cfg : Config) (s : State F) (e : Event F) : Moves cfg s e (step cfg s e) := by
  cases e with
  | deliver block => exact Moves.deliver s block
  | stage epochStart o outcome =>
    cases h : s.phase with
    | waiting => simpa [step, h] using Moves.stage s epochStart o outcome h
    | _ => simpa [step, h] using Moves.idle s _
  | listPeers o =>
    cases h : s.phase with
    | staged st => simpa [step, h] using Moves.listPeers s o st h
    | _ => simpa [step, h] using Moves.idle s _
  | runEngine reply =>
    cases h : s.phase with
    | listed st pythonArgs => simpa [step, h] using Moves.runEngine s reply st pythonArgs h
    | _ => simpa [step, h] using Moves.idle s _
  | readTail =>
    cases h : s.phase with
    | trained st run => simpa [step, h] using Moves.readTail s st run h
    | _ => simpa [step, h] using Moves.idle s _
  | build o =>
    cases h : s.phase with
    | tailRead st run myPrevHash => simpa [step, h] using Moves.build s o st run myPrevHash h
    | _ => simpa [step, h] using Moves.idle s _
  | append =>
    cases h : s.phase with
    | built st run myPrevHash myProposal evaluations =>
      simpa [step, h] using Moves.append s st run myPrevHash myProposal evaluations h
    | _ => simpa [step, h] using Moves.idle s _

theorem mem_buildEvaluations {cfg : Config} {epochStart : ℕ} {chains : LatticeChains F}
    {ws : List (String × F)} {h : String} {b : LatticeBlock F}
    (hb : b ∈ buildEvaluations cfg epochStart chains ws h) :
    ∃ w ∈ ws, ∃ p, latestProposal (chainOf chains w.1) = some p ∧
      ∃ h', b = evalBlock cfg epochStart h' w.1 p.block.hash w.2 := by
  induction ws generalizing h with
  | nil => simp [buildEvaluations] at hb
  | cons w ws ih =>
    rw [buildEvaluations] at hb
    cases hp : latestProposal (chainOf chains w.1) with
    | none =>
      rw [hp] at hb
      obtain ⟨v, hv, hrest⟩ := ih hb
      exact ⟨v, List.mem_cons_of_mem w hv, hrest⟩
    | some p =>
      rw [hp] at hb
      cases List.mem_cons.1 hb with
      | inl heq => exact ⟨w, List.mem_cons_self, p, hp, h, heq⟩
      | inr hmem =>
        obtain ⟨v, hv, hrest⟩ := ih hmem
        exact ⟨v, List.mem_cons_of_mem w hv, hrest⟩

end Step

theorem block_of_proposal {b : LatticeBlock F} {p : ProposalBlock F} (h : proposal? b = some p) :
    p.block = b := by
  unfold proposal? at h
  split at h
  · rw [← Option.some.inj h]
  · simp at h

theorem latestProposal_append (chain : List (LatticeBlock F)) (b : LatticeBlock F) :
    latestProposal (chain ++ [b]) = (proposal? b).or (latestProposal chain) := by
  rw [latestProposal, List.reverse_append, List.reverse_singleton, List.singleton_append,
    List.findSome?_cons]
  cases proposal? b <;> rfl

end Slakshna.Epoch

import Slakshna.Chain.Contribution
import Slakshna.Node.OwnChain

/-! The blocks that one epoch builds from what the ML process leaves, and what a store makes of them.
The chains may have grown between the tail that is read and the proposals that are judged. -/
namespace Slakshna.Epoch
open LatticeBlock Chains Committee Contribution Bytes
variable {F : Type}

/-- What `Command::output` gives. The text is what `from_utf8_lossy` makes of stdout. -/
inductive CommandOutput where
  | notStarted
  | exited (success : Bool) (stdout : List Char)

def splitInclusive : List Char → List (List Char)
  | [] => []
  | c :: cs =>
    if c = '\n' then [c] :: splitInclusive cs
    else
      match splitInclusive cs with
      | [] => [[c]]
      | line :: rest => (c :: line) :: rest

def stripSuffix (c : Char) (line : List Char) : Option (List Char) :=
  if line.getLast? = some c then some line.dropLast else none

def lines (s : List Char) : List (List Char) :=
  (splitInclusive s).map (fun line =>
    match stripSuffix '\n' line with
    | none => line
    | some line => (stripSuffix '\r' line).getD line)

def lastLine (stdout : List Char) : List Char := (lines stdout).getLast?.getD []

example : lastLine "Epoch 1\r\n{}\r\n".toList = "{}".toList := by decide

/-- `fromStr` is `serde_json::from_str`. -/
def mlData (fromStr : List Char → Option (MLEngineOutput F)) :
    CommandOutput → Option (MLEngineOutput F)
  | .notStarted => none
  | .exited success stdout => if success then fromStr (lastLine stdout) else none

section Build
variable [LeBytes F] [Sha256] [Zero F]

/-- `chains` is read for the tail, `chains'` for the proposals. -/
def epochBlocks (cfg : Config) (epochStart : ℕ) (chains chains' : LatticeChains F)
    (o : IterOrder (String × F)) (out : Option (MLEngineOutput F)) : List (LatticeBlock F) :=
  let myProposal := buildProposal cfg epochStart (tailHash (chainOf chains cfg.nodeId)) out
  myProposal :: build cfg epochStart chains' o myProposal out

end Build

def IsLastProposal (chain : List (LatticeBlock F)) (b : LatticeBlock F) : Prop :=
  ∃ older newer, chain = older ++ b :: newer ∧ IsProposal b ∧ ∀ c ∈ newer, ¬IsProposal c

theorem proposal?_eq_none_iff {b : LatticeBlock F} : proposal? b = none ↔ ¬IsProposal b := by
  unfold proposal? IsProposal target?
  split
  · next h => simp [h]
  · next h => simp [h]

theorem latestProposal_isLast {chain : List (LatticeBlock F)} {p : ProposalBlock F}
    (h : latestProposal chain = some p) : IsLastProposal chain p.block := by
  obtain ⟨newer, b, older, hsplit, hb, hnone⟩ := List.findSome?_eq_some_iff.1 h
  have hblock := block_of_proposal hb
  refine ⟨older.reverse, newer.reverse, ?_, ?_, ?_⟩
  · have hreverse := congrArg List.reverse hsplit
    rw [List.reverse_reverse] at hreverse
    rw [hreverse, hblock]
    simp
  · rw [hblock]
    by_contra hnot
    rw [proposal?_eq_none_iff.2 hnot] at hb
    cases hb
  · intro c hc
    exact proposal?_eq_none_iff.1 (hnone c (List.mem_reverse.1 hc))

theorem latestProposal_isSome_iff {chain : List (LatticeBlock F)} :
    (latestProposal chain).isSome = true ↔ ∃ b ∈ chain, IsProposal b := by
  rw [Option.isSome_iff_ne_none, ne_eq, latestProposal, List.findSome?_eq_none_iff]
  simp [proposal?_eq_none_iff]

section Built
variable [LeBytes F] [Sha256] [Zero F] {cfg : Config} {epochStart : ℕ}
  {chains chains' : LatticeChains F} {o : IterOrder (String × F)}

theorem targets_buildEvaluations (ws : List (String × F)) (h : String) :
    (buildEvaluations cfg epochStart chains ws h).filterMap target? =
      (ws.map Prod.fst).filter (fun id => (latestProposal (chainOf chains id)).isSome) := by
  induction ws generalizing h with
  | nil => rfl
  | cons w ws ih =>
    obtain ⟨id, weight⟩ := w
    rw [buildEvaluations, List.map_cons]
    cases hp : latestProposal (chainOf chains id) with
    | none =>
      rw [List.filter_cons_of_neg (by simp [hp])]
      exact ih h
    | some p =>
      rw [List.filter_cons_of_pos (by simp [hp])]
      exact congrArg (List.cons id) (ih _)

theorem nodup_targets (out : MLEngineOutput F) (h : String) :
    ((buildEvaluations cfg epochStart chains (out.weights.iter o) h).filterMap target?).Nodup := by
  rw [targets_buildEvaluations]
  exact (HashMap.nodup_keys_iter out.weights o).filter _

theorem mem_targets (out : MLEngineOutput F) (h : String) (id : String) :
    id ∈ (buildEvaluations cfg epochStart chains (out.weights.iter o) h).filterMap target? ↔
      id ∈ out.weights ∧ ∃ b ∈ chainOf chains id, IsProposal b := by
  rw [targets_buildEvaluations, List.mem_filter, latestProposal_isSome_iff, List.mem_map]
  constructor
  · rintro ⟨⟨w, hw, rfl⟩, hproposal⟩
    have hlookup := (HashMap.mem_iter_iff out.weights o w).1 hw
    exact ⟨AList.lookup_isSome.1 (by rw [hlookup]; rfl), hproposal⟩
  · rintro ⟨hid, hproposal⟩
    obtain ⟨weight, hweight⟩ := Option.isSome_iff_exists.1 (AList.lookup_isSome.2 hid)
    exact ⟨⟨(id, weight), (HashMap.mem_iter_iff out.weights o _).2 hweight, rfl⟩, hproposal⟩

/-- The evaluations of an epoch: one for each node of the weights with a proposal in its chain, which
judges the last one. -/
structure Judges (chains : LatticeChains F) (weights : HashMap String F)
    (evaluations : List (LatticeBlock F)) : Prop where
  once : (evaluations.filterMap target?).Nodup
  targets : ∀ id, id ∈ evaluations.filterMap target? ↔
    id ∈ weights ∧ ∃ b ∈ chainOf chains id, IsProposal b
  last : ∀ e ∈ evaluations, ∃ id p weight, e.blockType = .evaluation id p.hash 0 weight ∧
    IsLastProposal (chainOf chains id) p ∧ weights.lookup id = some weight

theorem judges_buildEvaluations (out : MLEngineOutput F) (h : String) :
    Judges chains out.weights
      (buildEvaluations cfg epochStart chains (out.weights.iter o) h) where
  once := nodup_targets out h
  targets := mem_targets out h
  last := by
    intro e he
    obtain ⟨w, hw, p, hp, h', rfl⟩ := mem_buildEvaluations he
    exact ⟨w.1, p.block, w.2, rfl, latestProposal_isLast hp,
      (HashMap.mem_iter_iff out.weights o w).1 hw⟩

omit [Zero F] in
theorem stored_of_hashOk {b : LatticeBlock F} (h : HashOk b) (receiver : LatticeChains F) :
    chainOf (addLatticeBlock receiver b) b.nodeId = chainOf receiver b.nodeId ++ [b] := by
  rw [chainOf_add, if_pos ⟨h, rfl⟩]

omit [Zero F] in
theorem not_hashOk_buildProposal (hsha : ∀ p, (Sha256.digest p).length = 32) (h : String) :
    ¬HashOk (buildProposal (F := F) cfg epochStart h none) := by
  intro hok
  have hnil : hexEncode [] = hexEncode (Sha256.digest (preimage
      (buildProposal (F := F) cfg epochStart h none))) := hok
  have hlength := congrArg List.length (hexEncode_injective hnil)
  rw [hsha] at hlength
  cases hlength

/-- What one epoch builds. After a run that went well it is linked to the tail that was read and is
stored by every node that receives it; after a run that failed it is a single block that no node
stores. -/
theorem epochBlocks_spec (hsha : ∀ p, (Sha256.digest p).length = 32) (cfg : Config)
    (epochStart : ℕ) (chains chains' : LatticeChains F) (o : IterOrder (String × F))
    (fromStr : List Char → Option (MLEngineOutput F)) (output : CommandOutput) :
    (∀ stdout out, output = .exited true stdout → fromStr (lastLine stdout) = some out →
      ∃ p evaluations,
        epochBlocks cfg epochStart chains chains' o (mlData fromStr output) = p :: evaluations ∧
        p.blockType = .proposal out.modelHash out.compressedDelta ∧
        p.prevHash = tailHash (chainOf chains cfg.nodeId) ∧ LinkedFrom p.hash evaluations ∧
        Judges chains' out.weights evaluations ∧
        ∀ b ∈ p :: evaluations, ∀ receiver : LatticeChains F,
          chainOf (addLatticeBlock receiver b) b.nodeId = chainOf receiver b.nodeId ++ [b]) ∧
    ((output = .notStarted ∨ (∃ stdout, output = .exited false stdout) ∨
        ∃ stdout, output = .exited true stdout ∧ fromStr (lastLine stdout) = none) →
      ∃ p, epochBlocks cfg epochStart chains chains' o (mlData fromStr output) = [p] ∧
        ∀ receiver : LatticeChains F, addLatticeBlock receiver p = receiver) := by
  constructor
  · rintro stdout out rfl hout
    have hdata : mlData fromStr (.exited true stdout) = some out := hout
    rw [hdata]
    refine ⟨_, _, rfl, rfl, prevHash_buildProposal cfg _ _ _,
      linkedFrom_buildEvaluations cfg _ _ _ _, judges_buildEvaluations out _, ?_⟩
    intro b hb receiver
    apply stored_of_hashOk
    cases List.mem_cons.1 hb with
    | inl heq =>
      rw [heq]
      exact hashOk_sealed _
    | inr hmem => exact hashOk_buildEvaluations cfg _ _ _ _ b hmem
  · intro hfailed
    have hdata : mlData fromStr output = none := by
      rcases hfailed with rfl | ⟨stdout, rfl⟩ | ⟨stdout, rfl, hnone⟩
      · rfl
      · rfl
      · exact hnone
    rw [hdata]
    exact ⟨_, rfl, fun receiver => add_of_not_hashOk receiver (not_hashOk_buildProposal hsha _)⟩

theorem pending_epochBlocks {s : State F} {st : Staging F} {run : EngineRun F}
    (h : s.phase = .trained st run) (cfg : Config) (blocks : List (LatticeBlock F))
    (o : IterOrder (String × F)) :
    (Run.exec (step cfg) s (.readTail :: (blocks.map .deliver ++ [.build o]))).phase.pending =
      epochBlocks cfg st.epochStart s.chains (receive s.chains blocks) o run.output := by
  have hread : step cfg s .readTail =
      { s with phase := .tailRead st run (tailHash (chainOf s.chains cfg.nodeId)) } := by
    rw [step, h]
  have hdelivered : ∀ s' : State F, Run.exec (step cfg) s' (blocks.map .deliver) =
      { s' with chains := receive s'.chains blocks } := by
    induction blocks with
    | nil => exact fun s' => rfl
    | cons b blocks ih => exact fun s' => ih _
  rw [Run.exec_cons, hread, Run.exec_append, hdelivered]
  rfl

end Built

def sampleStdout : List Char :=
  "\x7b\"validation_score\": 90.0, \"model_hash\": \"m\", \"weights\": \x7b\"peer\": 0.5\x7d, ".toList ++
    "\"metadata\": \"\", \"compressed_delta\": \"d\"\x7d\n".toList

def sampleOutput : MLEngineOutput FiniteF64 := ⟨AList.singleton "peer" .half, "m", "d"⟩

theorem epochBlocks_spec_sample :
    letI := Sha256.ofValues epochDigests
    ∃ p evaluations,
      epochBlocks sampleConfig 600 ∅ (addLatticeBlock ∅ samplePayload.sealed) .asStored
        (mlData (fun text => if text = sampleStdout.dropLast then some sampleOutput else none)
          (.exited true sampleStdout)) = p :: evaluations ∧
      p.blockType = .proposal "m" "d" ∧ p.prevHash = genesisHash ∧ LinkedFrom p.hash evaluations ∧
      Judges (addLatticeBlock ∅ samplePayload.sealed) sampleOutput.weights evaluations ∧
      ∀ b ∈ p :: evaluations, ∀ receiver : LatticeChains FiniteF64,
        chainOf (addLatticeBlock receiver b) b.nodeId = chainOf receiver b.nodeId ++ [b] := by
  let := Sha256.ofValues epochDigests
  have hlength : ∀ p, (Sha256.digest p).length = 32 :=
    Sha256.length_ofValues (by simp [epochDigests])
  exact (epochBlocks_spec hlength sampleConfig 600 ∅ _ .asStored _ _).1 sampleStdout sampleOutput rfl
    (if_pos (by decide +kernel))

end Slakshna.Epoch

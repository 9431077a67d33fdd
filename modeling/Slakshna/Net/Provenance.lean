import Slakshna.Net.Replication
import Slakshna.Node.Evaluations

/-! Where the contents of a cluster come from: what an evaluation refers to, and whose delta an engine
scores. -/
namespace Slakshna.Epoch
open LatticeBlock Chains
variable {F : Type}

def Phase.run? : Phase F → Option (EngineRun F)
  | .trained _ run | .tailRead _ run _ | .built _ run _ _ _ => some run
  | .waiting | .staged _ | .listed _ _ => none

/-- A staging pass that fails to write a file leaves none. -/
def CleanWrites : Event F → Prop
  | .stage _ _ outcome => ∀ peer left, outcome peer = .failed left → left = none
  | _ => True

section Files
variable (cfg : Config) {outcome : String → WriteOutcome}
  (hclean : ∀ peer left, outcome peer = .failed left → left = none)
include hclean

theorem stage_cases (disk : Disk) (ds : List (StagedDelta F)) {p : Path} {text : String}
    (h : stage cfg outcome disk ds p = some text) :
    disk p = some text ∨
      ∃ d ∈ ds, Path.normalise (deltaPath cfg d.peer) = p ∧ d.proposal.compressedDelta = text := by
  induction ds generalizing disk with
  | nil => exact Or.inl h
  | cons d ds ih =>
    rw [stage, List.foldl_cons, ← stage] at h
    cases ih _ h with
    | inr hlater =>
      obtain ⟨e, he, hrest⟩ := hlater
      exact Or.inr ⟨e, List.mem_cons_of_mem d he, hrest⟩
    | inl hwritten =>
      by_cases hp : p = Path.normalise (deltaPath cfg d.peer)
      · subst hp
        cases houtcome : outcome d.peer with
        | done =>
          rw [houtcome, write, Function.update_self] at hwritten
          exact Or.inr ⟨d, List.mem_cons_self, rfl, Option.some.inj hwritten⟩
        | failed left =>
          rw [houtcome, write, Function.update_self, hclean d.peer left houtcome] at hwritten
          cases hwritten
      · have hsame : write disk (Path.normalise (deltaPath cfg d.peer)) d.proposal.compressedDelta
            (outcome d.peer) p = disk p := by
          cases outcome d.peer <;> simp [write, Function.update_of_ne hp]
        rw [hsame] at hwritten
        exact Or.inl hwritten

end Files

section Built
variable [LeBytes F] [Sha256] [Zero F]

theorem pending_step_built (cfg : Config) (s : State F) (e : Event F) {b : LatticeBlock F}
    (hb : b ∈ (step cfg s e).phase.pending) :
    b ∈ s.phase.pending ∨
    (∃ run epochStart h, s.phase.run? = some run ∧ b = buildProposal cfg epochStart h run.output) ∨
    ∃ (target : String) (p : ProposalBlock F) (epochStart : ℕ) (h : String) (weight : F),
      latestProposal (chainOf s.chains target) = some p ∧
      b = evalBlock cfg epochStart h target p.block.hash weight := by
  have hmove := step_moves cfg s e
  generalize step cfg s e = s' at hmove hb
  cases hmove with
  | deliver | idle => exact Or.inl hb
  | build o st run myPrevHash hphase =>
    have hrun : s.phase.run? = some run := by rw [hphase]; rfl
    cases List.mem_cons.1 hb with
    | inl heq => exact Or.inr (Or.inl ⟨run, _, _, hrun, heq⟩)
    | inr hmem =>
      cases hout : run.output with
      | none => simp [build, hout] at hmem
      | some out =>
        rw [hout] at hmem
        obtain ⟨w, _, p, hp, h, heq⟩ := mem_buildEvaluations hmem
        exact Or.inr (Or.inr ⟨w.1, p, _, h, w.2, hp, heq⟩)
  | stage | listPeers | runEngine | readTail | append => simp [Phase.pending] at hb

theorem run_step (cfg : Config) (s : State F) (e : Event F) {run : EngineRun F}
    (h : (step cfg s e).phase.run? = some run) :
    s.phase.run? = some run ∨
      ∃ reply pythonArgs, e = .runEngine reply ∧ run = runEngine cfg s.disk pythonArgs reply := by
  have hmove := step_moves cfg s e
  generalize step cfg s e = s' at hmove h
  cases hmove with
  | deliver | idle => exact Or.inl h
  | runEngine reply st pythonArgs hphase =>
    exact Or.inr ⟨reply, pythonArgs, rfl, (Option.some.inj h).symm⟩
  | readTail st run' hphase =>
    left
    rw [hphase]
    exact h
  | build o st run' myPrevHash hphase =>
    left
    rw [hphase]
    exact h
  | stage | listPeers | append => simp [Phase.run?] at h

theorem disk_step (cfg : Config) (s : State F) (e : Event F) (hclean : CleanWrites e) {p : Path}
    {text : String} (h : (step cfg s e).disk p = some text) :
    s.disk p = some text ∨
      ∃ peer q, latestProposal (chainOf s.chains peer) = some q ∧
        Path.normalise (deltaPath cfg peer) = p ∧ q.compressedDelta = text := by
  have hmove := step_moves cfg s e
  generalize step cfg s e = s' at hmove h
  cases hmove with
  | stage epochStart o outcome hphase =>
    cases stage_cases cfg hclean s.disk _ h with
    | inl hold => exact Or.inl hold
    | inr hstaged =>
      obtain ⟨d, hd, hpath, htext⟩ := hstaged
      exact Or.inr ⟨d.peer, d.proposal, ((mem_stagedDeltas cfg s.chains o d).1 hd).2, hpath, htext⟩
  | deliver | idle | listPeers | runEngine | readTail | build | append => exact Or.inl h

end Built
end Slakshna.Epoch

namespace Slakshna.Cluster
open LatticeBlock Chains Contribution Committee

section Steps
variable {N F : Type} [DecidableEq N] [LeBytes F] [Sha256] [Zero F] {codec : Codec F}
  {cfg : N → Epoch.Config} {s : State N codec}

omit [DecidableEq N] in
@[simp] theorem receiveMessage_phase (cfg : Epoch.Config) (n : Epoch.State F) (m : codec.Message) :
    (receiveMessage cfg n m).phase = n.phase := by
  unfold receiveMessage
  cases codec.fromSlice m <;> rfl

omit [DecidableEq N] in
@[simp] theorem receiveMessage_disk (cfg : Epoch.Config) (n : Epoch.State F) (m : codec.Message) :
    (receiveMessage cfg n m).disk = n.disk := by
  unfold receiveMessage
  cases codec.fromSlice m <;> rfl

omit [DecidableEq N] in
@[simp] theorem receiveMessage_appended (cfg : Epoch.Config) (n : Epoch.State F)
    (m : codec.Message) : (receiveMessage cfg n m).appended = n.appended := by
  unfold receiveMessage
  cases codec.fromSlice m <;> rfl

inductive NodeStep (cfg : Epoch.Config) (n : Epoch.State F) (i : N) (e : Event N F) :
    Epoch.State F → Prop where
  | still : NodeStep cfg n i e n
  | loop (e' : Epoch.Event F) (h : e = .loop i e') (he : ∀ b, e' ≠ .deliver b) :
      NodeStep cfg n i e (Epoch.step cfg n e')
  | message (codec : Codec F) (m : codec.Message) : NodeStep cfg n i e (receiveMessage cfg n m)

theorem nodeStep (s : State N codec) (e : Event N F) (i : N) :
    NodeStep (cfg i) (s.node i).epoch i e ((step cfg s e).node i).epoch := by
  have hmove := step_moves cfg s e
  generalize step cfg s e = s' at hmove
  cases hmove with
  | idle | lose => exact NodeStep.still
  | loop a e he hready =>
    by_cases hi : i = a
    · subst hi
      simpa [setNode] using NodeStep.loop e rfl he
    · simpa [setNode, Function.update_of_ne hi] using NodeStep.still
  | broadcast a b rest hready =>
    have hepoch := epoch_update s.node a { s.node a with
      toBroadcast := rest
      commands := (s.node a).commands ++ [b] } rfl i
    simp only [setNode, hepoch]
    exact NodeStep.still
  | publish a reached b rest hready =>
    have hepoch := epoch_update s.node a { s.node a with commands := rest } rfl i
    simp only [hepoch]
    exact NodeStep.still
  | deliver a c older newer m hsplit =>
    by_cases hi : i = c
    · subst hi
      simpa [setNode] using NodeStep.message codec m
    · simpa [setNode, Function.update_of_ne hi] using NodeStep.still

theorem chainOf_grows (hsound : Sound cfg s) (e : Event N F) (j : N) (id : String) :
    chainOf (s.node j).epoch.chains id <+: chainOf ((step cfg s e).node j).epoch.chains id := by
  have hnode : NodeStep (cfg j) _ j e ((step cfg s e).node j).epoch := nodeStep s e j
  generalize ((step cfg s e).node j).epoch = n at hnode
  cases hnode with
  | still => exact List.prefix_rfl
  | loop e' h he =>
    rw [chainOf_loop _ e' he (hsound.node j).pending id]
    exact List.prefix_append _ _
  | message codec m =>
    rw [chainOf_receiveMessage]
    exact List.prefix_append _ _

theorem pending_cluster (s : State N codec) (e : Event N F) {i : N} {b : LatticeBlock F}
    (hb : b ∈ ((step cfg s e).node i).epoch.phase.pending) :
    b ∈ (s.node i).epoch.phase.pending ∨
    (∃ run epochStart h, (s.node i).epoch.phase.run? = some run ∧
      b = Epoch.buildProposal (cfg i) epochStart h run.output) ∨
    ∃ (target : String) (p : Epoch.ProposalBlock F) (epochStart : ℕ) (h : String) (weight : F),
      Epoch.latestProposal (chainOf (s.node i).epoch.chains target) = some p ∧
      b = Epoch.evalBlock (cfg i) epochStart h target p.block.hash weight := by
  have hnode : NodeStep (cfg i) _ i e ((step cfg s e).node i).epoch := nodeStep s e i
  generalize ((step cfg s e).node i).epoch = n at hnode hb
  cases hnode with
  | still => exact Or.inl hb
  | loop e' h he => exact Epoch.pending_step_built (cfg i) _ e' hb
  | message codec m =>
    rw [receiveMessage_phase] at hb
    exact Or.inl hb

theorem own_cluster (hids : Function.Injective (fun i => (cfg i).nodeId)) (hsound : Sound cfg s)
    (e : Event N F) {i : N} {b : LatticeBlock F}
    (hb : b ∈ chainOf ((step cfg s e).node i).epoch.chains (cfg i).nodeId) :
    b ∈ chainOf (s.node i).epoch.chains (cfg i).nodeId ∨ b ∈ (s.node i).epoch.phase.pending := by
  have hsound' := sound_step hids s e hsound
  have hown := (hsound.node i).own.chain
  have hown' := (hsound'.node i).own.chain
  have hnode : NodeStep (cfg i) _ i e ((step cfg s e).node i).epoch := nodeStep s e i
  generalize ((step cfg s e).node i).epoch = n at hnode hb hown'
  cases hnode with
  | still => exact Or.inl hb
  | loop e' h he =>
    rw [chainOf_loop _ e' he (hsound.node i).pending, if_pos rfl] at hb
    cases List.mem_append.1 hb with
    | inl hold => exact Or.inl hold
    | inr hnew =>
      cases e' with
      | append => exact Or.inr (List.mem_of_mem_filter hnew)
      | _ => simp [appends] at hnew
  | message codec m =>
    rw [hown', receiveMessage_appended] at hb
    exact Or.inl (hown ▸ hb)

theorem run_cluster (s : State N codec) (e : Event N F) {i : N} {run : Epoch.EngineRun F}
    (h : ((step cfg s e).node i).epoch.phase.run? = some run) :
    (s.node i).epoch.phase.run? = some run ∨
      ∃ reply pythonArgs, e = .loop i (.runEngine reply) ∧
        run = Epoch.runEngine (cfg i) (s.node i).epoch.disk pythonArgs reply := by
  have hnode : NodeStep (cfg i) _ i e ((step cfg s e).node i).epoch := nodeStep s e i
  generalize ((step cfg s e).node i).epoch = n at hnode h
  cases hnode with
  | still => exact Or.inl h
  | loop e' he' he =>
    cases Epoch.run_step (cfg i) _ e' h with
    | inl hold => exact Or.inl hold
    | inr hnew =>
      obtain ⟨reply, pythonArgs, rfl, hrun⟩ := hnew
      exact Or.inr ⟨reply, pythonArgs, he', hrun⟩
  | message codec m =>
    rw [receiveMessage_phase] at h
    exact Or.inl h

def CleanWrites : Event N F → Prop
  | .loop _ e => Epoch.CleanWrites e
  | _ => True

theorem disk_cluster (s : State N codec) (e : Event N F) (hclean : CleanWrites e) {j : N}
    {p : Path} {text : String} (h : ((step cfg s e).node j).epoch.disk p = some text) :
    (s.node j).epoch.disk p = some text ∨
      ∃ peer q, Epoch.latestProposal (chainOf (s.node j).epoch.chains peer) = some q ∧
        Path.normalise (Epoch.deltaPath (cfg j) peer) = p ∧ q.compressedDelta = text := by
  have hnode : NodeStep (cfg j) _ j e ((step cfg s e).node j).epoch := nodeStep s e j
  generalize ((step cfg s e).node j).epoch = n at hnode h
  cases hnode with
  | still => exact Or.inl h
  | loop e' he' he =>
    subst he'
    exact Epoch.disk_step (cfg j) _ e' hclean h
  | message codec m =>
    rw [receiveMessage_disk] at h
    exact Or.inl h

end Steps

section References
variable {N T : Type} (c : F64Codec T) [DecidableEq N] [Sha256] {cfg : N → Epoch.Config}

theorem replica_subset (hids : Function.Injective (fun i => (cfg i).nodeId))
    (hsha : Function.Injective Sha256.digest) (disk : N → Disk) (events : List (Event N FiniteF64))
    (i j : N) :
    let s := Run.exec (step cfg) (State.initial disk : State N (jsonCodec c)) events
    replica c cfg s i j ⊆ ownChain c cfg s i := by
  classical
  intro s b hb
  by_cases hij : i = j
  · subst hij
    exact hb
  · have hlink := link_conserved (jsonCodec c) hids disk events (fun e _ => keeps_noPromise e) hij
    rw [link_run c hids hsha] at hlink
    exact List.mem_of_mem_filter (hlink.subperm.subset hb)

theorem latest_in_own (hids : Function.Injective (fun i => (cfg i).nodeId))
    (hsha : Function.Injective Sha256.digest) (disk : N → Disk) (events : List (Event N FiniteF64))
    {j : N} {target : String} {p : Epoch.ProposalBlock FiniteF64} :
    let s := Run.exec (step cfg) (State.initial disk : State N (jsonCodec c)) events
    Epoch.latestProposal (chainOf (s.node j).epoch.chains target) = some p →
    IsProposal p.block ∧ ∃ t, (cfg t).nodeId = target ∧ p.block ∈ replica c cfg s t j ∧
      p.block ∈ ownChain c cfg s t := by
  intro s hp
  obtain ⟨older, newer, hsplit, hproposal, _⟩ := Epoch.latestProposal_isLast hp
  refine ⟨hproposal, ?_⟩
  have hmem : p.block ∈ chainOf (s.node j).epoch.chains target := by simp [hsplit]
  have hclosed : Closed cfg (s.node j) := closed_run hids disk events j
  by_cases hid : ∃ t, (cfg t).nodeId = target
  · obtain ⟨t, rfl⟩ := hid
    exact ⟨t, rfl, hmem, replica_subset c hids hsha disk events t j hmem⟩
  · rw [hclosed.authors target (fun t ht => hid ⟨t, ht⟩)] at hmem
    cases hmem

def Refers (cfg : N → Epoch.Config) (s : State N (jsonCodec c)) (b : LatticeBlock FiniteF64) : Prop :=
  ∀ targetNode proposalHash lossDrop trustScore,
    b.blockType = .evaluation targetNode proposalHash lossDrop trustScore →
    ∃ t, (cfg t).nodeId = targetNode ∧
      ∃ p ∈ ownChain c cfg s t, IsProposal p ∧ p.hash = proposalHash

theorem Refers.step {s : State N (jsonCodec c)} {b : LatticeBlock FiniteF64}
    (h : Refers c cfg s b) (hsound : Sound cfg s) (e : Event N FiniteF64) :
    Refers c cfg (step cfg s e) b := by
  intro target q l w hb
  obtain ⟨t, ht, p, hp, hproposal⟩ := h target q l w hb
  exact ⟨t, ht, p, (chainOf_grows hsound e t (cfg t).nodeId).subset hp, hproposal⟩

theorem refers_run (hids : Function.Injective (fun i => (cfg i).nodeId))
    (hsha : Function.Injective Sha256.digest) (disk : N → Disk) (events : List (Event N FiniteF64)) :
    let s := Run.exec (step cfg) (State.initial disk : State N (jsonCodec c)) events
    ∀ i, ∀ b, b ∈ ownChain c cfg s i ∨ b ∈ (s.node i).epoch.phase.pending → Refers c cfg s b := by
  induction events using List.reverseRecOn with
  | nil =>
    intro s i b hb
    simp [s, ownChain, State.initial, Epoch.State.initial, Epoch.Phase.pending] at hb
  | append_singleton events e ih =>
    intro s i b hb
    have hsound : Sound cfg (Run.exec (step cfg) (State.initial disk : State N (jsonCodec c)) events) :=
      sound_run hids disk events
    have hstep : s = step cfg (Run.exec (step cfg) (State.initial disk) events) e :=
      Run.exec_append _ _ _ _
    rw [hstep] at hb ⊢
    cases hb with
    | inl hown => exact Refers.step c (ih i b (own_cluster hids hsound e hown)) hsound e
    | inr hpending =>
      rcases pending_cluster _ e hpending with hold | ⟨run, epochStart, h, _, rfl⟩ |
        ⟨target, p, epochStart, h, weight, hp, rfl⟩
      · exact Refers.step c (ih i b (Or.inr hold)) hsound e
      · intro target q l w hb
        have hproposal := isProposal_buildProposal (cfg i) epochStart h run.output
        simp [IsProposal, target?, hb] at hproposal
      · apply Refers.step c _ hsound e
        intro target' q l w hb
        obtain ⟨rfl, rfl, _, _⟩ : target = target' ∧ p.block.hash = q ∧ 0 = l ∧ weight = w := by
          simpa [Epoch.evalBlock, LatticeBlock.sealed] using hb
        obtain ⟨hproposal, t, ht, _, hmem⟩ := latest_in_own c hids hsha disk events hp
        exact ⟨t, ht, p.block, hmem, hproposal, rfl⟩

/-- In every run, whatever a node holds under an id, its own or a copy, was appended by the node of
that id, and an evaluation among it names a proposal that its target itself appended. -/
theorem evaluations_refer (hids : Function.Injective (fun i => (cfg i).nodeId))
    (hsha : Function.Injective Sha256.digest) (disk : N → Disk) (events : List (Event N FiniteF64)) :
    let s := Run.exec (step cfg) (State.initial disk : State N (jsonCodec c)) events
    ∀ j id, ∀ b ∈ chainOf (s.node j).epoch.chains id,
      (∃ i, (cfg i).nodeId = id ∧ b ∈ (s.node i).epoch.appended) ∧ Refers c cfg s b := by
  intro s j id b hb
  have hclosed : Closed cfg (s.node j) := closed_run hids disk events j
  by_cases hid : ∃ i, (cfg i).nodeId = id
  · obtain ⟨i, rfl⟩ := hid
    have hown := replica_subset c hids hsha disk events i j hb
    have happended := ((sound_run hids disk events : Sound cfg s).node i).own.chain
    exact ⟨⟨i, rfl, happended ▸ hown⟩, refers_run c hids hsha disk events i b (Or.inl hown)⟩
  · rw [hclosed.authors id (fun i hi => hid ⟨i, hi⟩)] at hb
    cases hb

end References

section Scored
variable {N T : Type} (c : F64Codec T) [DecidableEq N] {cfg : N → Epoch.Config}

def printed? (i : N) : Event N FiniteF64 → Option (String × String)
  | .loop a (.runEngine (some reply)) =>
    if a = i then some (reply.modelHash, reply.compressedDelta) else none
  | _ => none

def printed (i : N) (events : List (Event N FiniteF64)) : List (String × String) :=
  events.filterMap (printed? i)

def Told (outputs : List (String × String)) (b : LatticeBlock FiniteF64) : Prop :=
  ∀ payloadHash compressedDelta, b.blockType = .proposal payloadHash compressedDelta →
    (payloadHash, compressedDelta) ∈ outputs ∨
      (payloadHash = "error_hash" ∧ compressedDelta = "")

theorem Told.mono {outputs outputs' : List (String × String)} {b : LatticeBlock FiniteF64}
    (h : Told outputs b) (hsub : outputs ⊆ outputs') : Told outputs' b := by
  intro p d hb
  exact (h p d hb).imp_left (fun hmem => hsub hmem)

structure OwnOutput (outputs : List (String × String)) (n : Epoch.State FiniteF64)
    (own : List (LatticeBlock FiniteF64)) : Prop where
  output : ∀ run out, n.phase.run? = some run → run.output = some out →
    (out.modelHash, out.compressedDelta) ∈ outputs
  pending : ∀ b ∈ n.phase.pending, Told outputs b
  chain : ∀ b ∈ own, Told outputs b

variable [Sha256]

theorem ownOutput_run (hids : Function.Injective (fun i => (cfg i).nodeId)) (disk : N → Disk)
    (events : List (Event N FiniteF64)) :
    let s := Run.exec (step cfg) (State.initial disk : State N (jsonCodec c)) events
    ∀ i, OwnOutput (printed i events) (s.node i).epoch (ownChain c cfg s i) := by
  induction events using List.reverseRecOn with
  | nil =>
    intro s i
    constructor
    · intro run out h
      simp [s, State.initial, Epoch.State.initial, Epoch.Phase.run?] at h
    · simp [s, State.initial, Epoch.State.initial, Epoch.Phase.pending]
    · simp [s, ownChain, State.initial, Epoch.State.initial]
  | append_singleton events e ih =>
    intro s i
    have hsound : Sound cfg (Run.exec (step cfg) (State.initial disk : State N (jsonCodec c)) events) :=
      sound_run hids disk events
    have hstep : s = step cfg (Run.exec (step cfg) (State.initial disk) events) e :=
      Run.exec_append _ _ _ _
    have hsub : printed i events ⊆ printed i (events ++ [e]) := by
      rw [printed, printed, List.filterMap_append]
      exact List.subset_append_left _ _
    have hbefore := ih i
    rw [hstep]
    constructor
    · intro run out hrun hout
      rcases run_cluster _ e hrun with hold | ⟨reply, pythonArgs, rfl, rfl⟩
      · exact hsub (hbefore.output run out hold hout)
      · cases reply with
        | none => simp [Epoch.runEngine] at hout
        | some reply =>
          have hprinted : (reply.modelHash, reply.compressedDelta) ∈
              printed i (events ++ [.loop i (.runEngine (some reply))]) := by
            simp [printed, printed?]
          rw [← Option.some.inj hout]
          exact hprinted
    · intro b hb
      rcases pending_cluster _ e hb with hold | ⟨run, epochStart, h, hrun, rfl⟩ |
        ⟨target, p, epochStart, h, weight, _, rfl⟩
      · exact (hbefore.pending b hold).mono hsub
      · intro p d htype
        cases hout : run.output with
        | none =>
          rw [hout] at htype
          obtain ⟨rfl, rfl⟩ : "error_hash" = p ∧ "" = d := by
            simpa [Epoch.buildProposal, Epoch.unsealedProposal] using htype
          exact Or.inr ⟨rfl, rfl⟩
        | some out =>
          rw [hout] at htype
          obtain ⟨rfl, rfl⟩ : out.modelHash = p ∧ out.compressedDelta = d := by
            simpa [Epoch.buildProposal, Epoch.unsealedProposal, LatticeBlock.sealed] using htype
          exact Or.inl (hsub (hbefore.output run out hrun hout))
      · intro p d htype
        simp [Epoch.evalBlock, LatticeBlock.sealed] at htype
    · intro b hb
      cases own_cluster hids hsound e hb with
      | inl hold => exact (hbefore.chain b hold).mono hsub
      | inr hpending => exact (hbefore.pending b hpending).mono hsub

def Printed (outputs : List (String × String)) (delta : String) : Prop :=
  delta = "" ∨ ∃ modelHash, (modelHash, delta) ∈ outputs

omit [Sha256] in
theorem Printed.mono {outputs outputs' : List (String × String)} {delta : String}
    (h : Printed outputs delta) (hsub : outputs ⊆ outputs') : Printed outputs' delta :=
  h.imp_right (fun ⟨modelHash, hmem⟩ => ⟨modelHash, hsub hmem⟩)

omit [Sha256] in
theorem printed_of_told {outputs : List (String × String)} {q : Epoch.ProposalBlock FiniteF64}
    (h : Told outputs q.block) : Printed outputs q.compressedDelta :=
  (h _ _ q.isProposal).symm.imp And.right (fun hmem => ⟨q.payloadHash, hmem⟩)

/-- What lies under the name of a peer's delta was printed by that peer, as was what the engine read
there. -/
structure Authentic (outputs : List (String × String)) (cfg : Epoch.Config) (peer : String)
    (n : Epoch.State FiniteF64) : Prop where
  disk : ∀ text, n.disk (Path.normalise (Epoch.deltaPath cfg peer)) = some text →
    Printed outputs text
  scored : ∀ run text, n.phase.run? = some run → run.scored peer = some text →
    Printed outputs text

/-- In a cluster whose ids have no slash, whose nodes start without deltas and leave none behind a
failed write: the delta an engine scores as a node's was printed by that node's engine. -/
theorem scored_authentic (hids : Function.Injective (fun i => (cfg i).nodeId))
    (hsha : Function.Injective Sha256.digest) (hslash : ∀ i, '/' ∉ (cfg i).nodeId.toList)
    (hdir : ∀ i, (cfg i).dataDir ≠ "") (disk : N → Disk)
    (hempty : ∀ i j, disk j (Path.normalise (Epoch.deltaPath (cfg j) (cfg i).nodeId)) = none)
    (events : List (Event N FiniteF64)) (hclean : ∀ e ∈ events, CleanWrites e) :
    let s := Run.exec (step cfg) (State.initial disk : State N (jsonCodec c)) events
    ∀ i j, Authentic (printed i events) (cfg j) (cfg i).nodeId (s.node j).epoch := by
  induction events using List.reverseRecOn with
  | nil =>
    intro s i j
    constructor
    · intro text h
      have hnone : (s.node j).epoch.disk = disk j := rfl
      rw [hnone, hempty i j] at h
      cases h
    · intro run text h
      simp [s, State.initial, Epoch.State.initial, Epoch.Phase.run?] at h
  | append_singleton events e ih =>
    intro s i j
    have hbefore := ih (fun e' he' => hclean e' (List.mem_append_left _ he')) i j
    have hstep : s = step cfg (Run.exec (step cfg) (State.initial disk) events) e :=
      Run.exec_append _ _ _ _
    have hsub : printed i events ⊆ printed i (events ++ [e]) := by
      rw [printed, printed, List.filterMap_append]
      exact List.subset_append_left _ _
    rw [hstep]
    constructor
    · intro text h
      rcases disk_cluster _ e (hclean e (by simp)) h with hold | ⟨peer, q, hq, hpath, rfl⟩
      · exact (hbefore.disk text hold).mono hsub
      · -- the id staged is a node's, and its name says whose
        obtain ⟨_, t, rfl, _, hmem⟩ := latest_in_own c hids hsha disk events hq
        obtain rfl : t = i := hids (Epoch.deltaPath_injective (hslash t) (hslash i) hpath)
        exact (printed_of_told ((ownOutput_run c hids disk events t).chain _ hmem)).mono hsub
    · intro run text hrun hscored
      rcases run_cluster _ e hrun with hold | ⟨reply, pythonArgs, rfl, rfl⟩
      · exact (hbefore.scored run text hold hscored).mono hsub
      · cases reply with
        | none => simp [Epoch.runEngine] at hscored
        | some reply =>
          have hhead : (cfg i).nodeId.toList.head? ≠ some '/' :=
            fun h => hslash i (List.mem_of_mem_head? h)
          simp only [Epoch.runEngine] at hscored
          split at hscored
          · rw [Epoch.normalise_nDeltaPath (hdir j) hhead] at hscored
            exact (hbefore.disk text hscored).mono hsub
          · cases hscored

end Scored

def sampleScoring : List (Event Bool FiniteF64) :=
  sampleEvents ++ [.loop true (.stage 1200 .asStored (fun _ => .done)), .loop true (.listPeers .asStored),
    .loop true (.runEngine (some ⟨fun _ => .half, fun _ => true, "m2", "c2"⟩)), .loop true .readTail,
    .loop true (.build .asStored)]

theorem evaluations_refer_sample :
    letI := sampleDigest
    let s := Run.exec (step sampleConfigs)
      (State.initial (fun _ _ => none) : State Bool (jsonCodec F64Codec.exact))
      (sampleScoring ++ [.loop true .append])
    ∀ b ∈ chainOf (s.node true).epoch.chains "peer",
      (∃ i, (sampleConfigs i).nodeId = "peer" ∧ b ∈ (s.node i).epoch.appended) ∧
        Refers F64Codec.exact sampleConfigs s b :=
  letI := sampleDigest
  evaluations_refer F64Codec.exact sampleConfigs_injective sampleDigest_injective _ _ true "peer"

theorem scored_authentic_sample :
    letI := sampleDigest
    let s := Run.exec (step sampleConfigs)
      (State.initial (fun _ _ => none) : State Bool (jsonCodec F64Codec.exact)) sampleScoring
    Authentic (printed false sampleScoring) (sampleConfigs true) "node" (s.node true).epoch :=
  letI := sampleDigest
  scored_authentic F64Codec.exact sampleConfigs_injective sampleDigest_injective (by decide)
    (by decide) _ (fun _ _ => rfl) sampleScoring
    (by simp [sampleScoring, sampleEvents, sampleEpoch, CleanWrites, Epoch.CleanWrites]) false true

end Slakshna.Cluster

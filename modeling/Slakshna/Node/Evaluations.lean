import Slakshna.Node.Staging

/-! Which proposal an evaluation names. It is looked up when the blocks are built, long after the
delta that was scored had been staged, so the two agree only while no other proposal comes between. -/
namespace Slakshna.Epoch
open LatticeBlock Chains
variable {F : Type}

def JudgesStaged (cfg : Config) (st : Staging F) (run : EngineRun F) (b : LatticeBlock F) : Prop :=
  ∀ targetNode proposalHash lossDrop trustScore,
    b.blockType = .evaluation targetNode proposalHash lossDrop trustScore →
    targetNode ≠ cfg.nodeId →
    ∃ d ∈ st.deltas, d.peer = targetNode ∧
      run.scored targetNode = some d.proposal.compressedDelta ∧
      proposalHash = d.proposal.block.hash

def EvaluationsTrue (cfg : Config) (s : State F) : Prop :=
  match s.phase with
  | .built st run _ _ evaluations => ∀ b ∈ evaluations, JudgesStaged cfg st run b
  | _ => True

def Names (st : Staging F) (b : LatticeBlock F) : Prop :=
  ∃ d ∈ st.deltas, d.peer = b.nodeId ∧ d.proposal.block.hash = b.hash

def Expects (b : LatticeBlock F) : Phase F → Prop
  | .staged st => Names st b
  | .listed st pythonArgs => b.nodeId ∈ pythonArgs → Names st b
  | .trained st run | .tailRead st run _ =>
    run.output.isSome → b.nodeId ∈ run.pythonArgs → Names st b
  | .waiting | .built _ _ _ _ _ => True

def Found (cfg : Config) (deltas : List (StagedDelta F)) (d : StagedDelta F) : Prop :=
  Path.normalise (nDeltaPath cfg d.peer) = Path.normalise (deltaPath cfg d.peer) ∧
  ∀ e ∈ deltas, Path.normalise (deltaPath cfg e.peer) = Path.normalise (deltaPath cfg d.peer) →
    e.proposal.compressedDelta = d.proposal.compressedDelta

section Condition
variable [LeBytes F] [Sha256]

/-- What a step has to meet: staged files are written, found and read, and no other proposal of a
peer to be judged is accepted while the epoch works on the staged ones. -/
def Undisturbed (cfg : Config) (s : State F) : Event F → Prop
  | .deliver b => HashOk b → b.nodeId ≠ cfg.nodeId → (proposal? b).isSome → Expects b s.phase
  | .stage _ o outcome => s.phase = .waiting → ∀ d ∈ stagedDeltas cfg s.chains o,
      outcome d.peer = .done ∧ Found cfg (stagedDeltas cfg s.chains o) d
  | .runEngine (some reply) => ∀ st pythonArgs, s.phase = .listed st pythonArgs →
      ∀ d ∈ st.deltas, d.peer ∈ pythonArgs → reply.loads d.peer = true
  | _ => True

end Condition

section Files

theorem normalise_nDeltaPath {cfg : Config} (hdir : cfg.dataDir ≠ "") {peer : String}
    (h : peer.toList.head? ≠ some '/') :
    Path.normalise (nDeltaPath cfg peer) = Path.normalise (deltaPath cfg peer) := by
  have hne : cfg.dataDir.toList ≠ [] := by simpa using hdir
  have hnd : ("network_deltas".toList).head? ≠ some '/' := by decide
  have hfile : (deltaFile peer).head? ≠ some '/' := by
    rw [deltaFile]
    cases hp : peer.toList with
    | nil => decide
    | cons c cs => rwa [hp] at h
  have hjoin : Path.join cfg.dataDir.toList "network_deltas".toList ≠ [] := by
    rw [Path.join, if_neg hnd]
    split <;> simp
  rw [nDeltaPath, if_neg hdir, Path.normalise_join hjoin hfile, Path.normalise_join hne hnd,
    deltaPath, peerDeltasDir, Path.normalise_cut (by simp), Path.normalise_cut hne]

theorem found_of_no_slash {cfg : Config} (hdir : cfg.dataDir ≠ "") (chains : LatticeChains F)
    (o : IterOrder (String × List (LatticeBlock F)))
    (h : ∀ d ∈ stagedDeltas cfg chains o, '/' ∉ d.peer.toList) :
    ∀ d ∈ stagedDeltas cfg chains o, Found cfg (stagedDeltas cfg chains o) d := by
  intro d hd
  refine ⟨normalise_nDeltaPath hdir (fun hhead => h d hd (List.mem_of_mem_head? hhead)), ?_⟩
  intro e he hpath
  have hpeer : e.peer = d.peer := deltaPath_injective (h e he) (h d hd) hpath
  have hp := ((mem_stagedDeltas cfg chains o e).1 he).2
  rw [hpeer, ((mem_stagedDeltas cfg chains o d).1 hd).2] at hp
  rw [← Option.some.inj hp]

variable (cfg : Config) (outcome : String → WriteOutcome) (p : Path)

theorem stage_untouched (disk : Disk) (ds : List (StagedDelta F))
    (h : ∀ d ∈ ds, Path.normalise (deltaPath cfg d.peer) ≠ p) :
    stage cfg outcome disk ds p = disk p := by
  induction ds generalizing disk with
  | nil => rfl
  | cons d ds ih =>
    have htail := ih (write disk (Path.normalise (deltaPath cfg d.peer)) d.proposal.compressedDelta
      (outcome d.peer)) (fun e he => h e (List.mem_cons_of_mem d he))
    have hhead : p ≠ Path.normalise (deltaPath cfg d.peer) := Ne.symm (h d (by simp))
    rw [stage, List.foldl_cons, ← stage, htail]
    cases outcome d.peer <;> simp [write, Function.update_of_ne hhead]

theorem stage_written (disk : Disk) (ds : List (StagedDelta F)) (content : String)
    (hdone : ∀ d ∈ ds, outcome d.peer = .done)
    (hsame : ∀ d ∈ ds, Path.normalise (deltaPath cfg d.peer) = p →
      d.proposal.compressedDelta = content)
    (h : ∃ d ∈ ds, Path.normalise (deltaPath cfg d.peer) = p) :
    stage cfg outcome disk ds p = some content := by
  induction ds generalizing disk with
  | nil => simp at h
  | cons d ds ih =>
    rw [stage, List.foldl_cons, ← stage]
    by_cases hlater : ∃ e ∈ ds, Path.normalise (deltaPath cfg e.peer) = p
    · exact ih _ (fun e he => hdone e (List.mem_cons_of_mem d he))
        (fun e he => hsame e (List.mem_cons_of_mem d he)) hlater
    · have hnone : ∀ e ∈ ds, Path.normalise (deltaPath cfg e.peer) ≠ p :=
        fun e he hp => hlater ⟨e, he, hp⟩
      obtain ⟨e, he, hp⟩ := h
      have hd : e = d := by
        cases List.mem_cons.1 he with
        | inl heq => exact heq
        | inr hmem => exact absurd hp (hnone e hmem)
      subst hd
      rw [stage_untouched cfg outcome p _ ds hnone, hdone e (by simp), hp, write,
        Function.update_self, hsame e (by simp) hp]

end Files

def OnDisk (cfg : Config) (st : Staging F) (disk : Disk) : Prop :=
  ∀ d ∈ st.deltas, disk (Path.normalise (nDeltaPath cfg d.peer)) =
    some d.proposal.compressedDelta

theorem onDisk_stage {cfg : Config} (deltas : List (StagedDelta F))
    (outcome : String → WriteOutcome) (disk : Disk) (epochStart : ℕ)
    (h : ∀ d ∈ deltas, outcome d.peer = .done ∧ Found cfg deltas d) :
    OnDisk cfg ⟨epochStart, deltas.filter (fun d => outcome d.peer = .done)⟩
      (stage cfg outcome disk deltas) := by
  intro d hd
  have hmem : d ∈ deltas := List.mem_of_mem_filter hd
  obtain ⟨hpath, hsame⟩ := (h d hmem).2
  rw [hpath]
  exact stage_written cfg outcome _ disk deltas _ (fun e he => (h e he).1) hsame ⟨d, hmem, rfl⟩

def Covered (st : Staging F) (chains : LatticeChains F) (peer : String) : Prop :=
  ∀ p, latestProposal (chainOf chains peer) = some p →
    ∃ d ∈ st.deltas, d.peer = peer ∧ d.proposal.block.hash = p.block.hash

theorem covered_stage {cfg : Config} (chains : LatticeChains F)
    (o : IterOrder (String × List (LatticeBlock F))) (outcome : String → WriteOutcome)
    (epochStart : ℕ) (h : ∀ d ∈ stagedDeltas cfg chains o, outcome d.peer = .done)
    {peer : String} (hme : peer ≠ cfg.nodeId) :
    Covered ⟨epochStart, (stagedDeltas cfg chains o).filter (fun d => outcome d.peer = .done)⟩
      chains peer := by
  intro p hp
  have hmem : (⟨peer, p⟩ : StagedDelta F) ∈ stagedDeltas cfg chains o :=
    (mem_stagedDeltas cfg chains o _).2 ⟨hme, hp⟩
  exact ⟨_, List.mem_filter.2 ⟨hmem, by simpa using h _ hmem⟩, rfl, rfl⟩

theorem covered_add [LeBytes F] [Sha256] {st : Staging F} {chains : LatticeChains F}
    {peer : String} (h : Covered st chains peer) (b : LatticeBlock F)
    (hb : HashOk b → b.nodeId = peer → (proposal? b).isSome → Names st b) :
    Covered st (addLatticeBlock chains b) peer := by
  intro p hp
  rw [chainOf_add] at hp
  by_cases hown : HashOk b ∧ b.nodeId = peer
  · rw [if_pos hown, latestProposal_append] at hp
    cases hprop : proposal? b with
    | none => exact h p (by simpa [hprop] using hp)
    | some q =>
      obtain ⟨d, hd, hpeer, hhash⟩ := hb hown.1 hown.2 (by rw [hprop]; rfl)
      have hqp : q = p := by simpa [hprop] using hp
      rw [← hqp, block_of_proposal hprop]
      exact ⟨d, hd, hpeer.trans hown.2, hhash⟩
  · rw [if_neg hown, List.append_nil] at hp
    exact h p hp

structure Judgeable (cfg : Config) (st : Staging F) (run : EngineRun F)
    (chains : LatticeChains F) : Prop where
  covered : run.output.isSome → ∀ peer ∈ run.pythonArgs, peer ≠ cfg.nodeId →
    Covered st chains peer
  scored : run.output.isSome → ∀ d ∈ st.deltas, d.peer ∈ run.pythonArgs →
    run.scored d.peer = some d.proposal.compressedDelta
  judged : ∀ out, run.output = some out → ∀ peer ∈ out.weights,
    peer = cfg.nodeId ∨ peer ∈ run.pythonArgs

theorem judgeable_add [LeBytes F] [Sha256] {cfg : Config} {st : Staging F} {run : EngineRun F}
    {chains : LatticeChains F} (h : Judgeable cfg st run chains) (b : LatticeBlock F)
    (hb : HashOk b → b.nodeId ≠ cfg.nodeId → (proposal? b).isSome →
      run.output.isSome → b.nodeId ∈ run.pythonArgs → Names st b) :
    Judgeable cfg st run (addLatticeBlock chains b) := by
  refine ⟨?_, h.scored, h.judged⟩
  intro hout peer hargs hme
  apply covered_add (h.covered hout peer hargs hme)
  intro hok hid hprop
  subst hid
  exact hb hok hme hprop hout hargs

theorem mem_weights (cfg : Config) (pythonArgs : List String) (weightOf : String → F)
    (peer : String) :
    peer ∈ weights cfg pythonArgs weightOf ↔ peer = cfg.nodeId ∨ peer ∈ pythonArgs := by
  rw [weights, HashMap.mem_foldl_insert]
  simp

theorem judgeable_run {cfg : Config} {st : Staging F} {chains : LatticeChains F} {disk : Disk}
    {pythonArgs : List String} (reply : Option (EngineReply F))
    (hcov : ∀ peer ∈ pythonArgs, peer ≠ cfg.nodeId → Covered st chains peer)
    (hdisk : OnDisk cfg st disk)
    (hloads : ∀ r, reply = some r → ∀ d ∈ st.deltas, d.peer ∈ pythonArgs → r.loads d.peer = true) :
    Judgeable cfg st (runEngine cfg disk pythonArgs reply) chains := by
  cases reply with
  | none =>
    refine ⟨fun _ => hcov, ?_, ?_⟩
    · simp [runEngine]
    · simp [runEngine]
  | some r =>
    refine ⟨fun _ => hcov, ?_, ?_⟩
    · intro _ d hd hargs
      simp only [runEngine, hloads r rfl d hd hargs, if_true]
      exact hdisk d hd
    · intro out hout peer hpeer
      rw [← Option.some.inj hout] at hpeer
      exact (mem_weights cfg pythonArgs r.weightOf peer).1 hpeer

section Run
variable [LeBytes F] [Sha256] [Zero F]

theorem judgesStaged_build {cfg : Config} {st : Staging F} {run : EngineRun F}
    {chains : LatticeChains F} (h : Judgeable cfg st run chains) (o : IterOrder (String × F))
    (myProposal : LatticeBlock F) :
    ∀ b ∈ build cfg st.epochStart chains o myProposal run.output, JudgesStaged cfg st run b := by
  intro b hb t q l w htype hme
  cases hout : run.output with
  | none => simp [build, hout] at hb
  | some out =>
    rw [hout] at hb
    obtain ⟨v, hv, p, hp, h', rfl⟩ := mem_buildEvaluations hb
    have hfields : LatticeBlockType.evaluation v.1 p.block.hash 0 v.2 = .evaluation t q l w := htype
    simp only [LatticeBlockType.evaluation.injEq] at hfields
    obtain ⟨rfl, rfl, -, -⟩ := hfields
    have hmem : v.1 ∈ out.weights := by
      rw [← AList.lookup_isSome, (HashMap.mem_iter_iff out.weights o v).1 hv]
      rfl
    have hargs : v.1 ∈ run.pythonArgs := (h.judged out hout v.1 hmem).resolve_left hme
    obtain ⟨d, hd, hpeer, hhash⟩ := h.covered (by rw [hout]; rfl) v.1 hargs hme p hp
    have hscored := h.scored (by rw [hout]; rfl) d hd (by rw [hpeer]; exact hargs)
    rw [hpeer] at hscored
    exact ⟨d, hd, hpeer, hscored, hhash.symm⟩

def Faithful (cfg : Config) (s : State F) : Prop :=
  match s.phase with
  | .waiting => True
  | .staged st =>
    (∀ peer, peer ≠ cfg.nodeId → Covered st s.chains peer) ∧ OnDisk cfg st s.disk
  | .listed st pythonArgs =>
    (∀ peer ∈ pythonArgs, peer ≠ cfg.nodeId → Covered st s.chains peer) ∧ OnDisk cfg st s.disk
  | .trained st run => Judgeable cfg st run s.chains
  | .tailRead st run _ => Judgeable cfg st run s.chains
  | .built st run _ _ evaluations => ∀ b ∈ evaluations, JudgesStaged cfg st run b

omit [Zero F] in
theorem faithful_deliver {cfg : Config} {s : State F} {b : LatticeBlock F} (h : Faithful cfg s)
    (hok : Undisturbed cfg s (.deliver b)) :
    Faithful cfg { s with chains := addLatticeBlock s.chains b } := by
  have hnames : HashOk b → b.nodeId ≠ cfg.nodeId → (proposal? b).isSome → Expects b s.phase := hok
  cases hphase : s.phase with
  | waiting => simp [Faithful]
  | staged st =>
    simp only [Faithful, hphase] at h ⊢
    simp only [Expects, hphase] at hnames
    refine ⟨fun peer hme => covered_add (h.1 peer hme) b ?_, h.2⟩
    intro hb hid hprop
    subst hid
    exact hnames hb hme hprop
  | listed st pythonArgs =>
    simp only [Faithful, hphase] at h ⊢
    simp only [Expects, hphase] at hnames
    refine ⟨fun peer hargs hme => covered_add (h.1 peer hargs hme) b ?_, h.2⟩
    intro hb hid hprop
    subst hid
    exact hnames hb hme hprop hargs
  | trained st run =>
    simp only [Faithful, hphase] at h ⊢
    simp only [Expects, hphase] at hnames
    exact judgeable_add h b hnames
  | tailRead st run myPrevHash =>
    simp only [Faithful, hphase] at h ⊢
    simp only [Expects, hphase] at hnames
    exact judgeable_add h b hnames
  | built st run myPrevHash myProposal evaluations =>
    simp only [Faithful, hphase] at h ⊢
    exact h

theorem faithful_step {cfg : Config} (s : State F) (e : Event F) (h : Faithful cfg s)
    (hok : Undisturbed cfg s e) : Faithful cfg (step cfg s e) := by
  have hmove := step_moves cfg s e
  generalize step cfg s e = s' at hmove
  cases hmove with
  | deliver block => exact faithful_deliver h hok
  | idle => exact h
  | stage epochStart o outcome hphase =>
    have hfiles := hok hphase
    exact ⟨fun peer hme => covered_stage s.chains o outcome epochStart
      (fun d hd => (hfiles d hd).1) hme, onDisk_stage _ outcome s.disk epochStart hfiles⟩
  | listPeers o st hphase =>
    rw [Faithful, hphase] at h
    exact ⟨fun peer _ hme => h.1 peer hme, h.2⟩
  | runEngine reply st pythonArgs hphase =>
    rw [Faithful, hphase] at h
    refine judgeable_run reply h.1 h.2 ?_
    intro r hr
    subst hr
    exact hok st pythonArgs hphase
  | readTail st run hphase =>
    rw [Faithful, hphase] at h
    exact h
  | build o st run myPrevHash hphase =>
    rw [Faithful, hphase] at h
    exact judgesStaged_build h o _
  | append st run myPrevHash myProposal evaluations hphase => trivial

/-- In an undisturbed run every evaluation of a peer names the proposal staged and scored. -/
theorem evaluations_true (cfg : Config) (disk : Disk) (events : List (Event F))
    (h : Run.Along (step cfg) (Undisturbed cfg) (State.initial disk) events) :
    EvaluationsTrue cfg (Run.exec (step cfg) (State.initial disk) events) := by
  have hfaithful : Faithful cfg (Run.exec (step cfg) (State.initial disk) events) :=
    Run.invariant faithful_step trivial h
  generalize Run.exec (step cfg) (State.initial disk) events = s at hfaithful ⊢
  cases hphase : s.phase with
  | built st run myPrevHash myProposal evaluations =>
    simpa [EvaluationsTrue, Faithful, hphase] using hfaithful
  | _ => simp [EvaluationsTrue, hphase]

end Run

def sampleReply : EngineReply FiniteF64 := ⟨fun _ => .half, fun _ => true, "m", "c"⟩

def sampleRest : List (Event FiniteF64) :=
  [.listPeers .asStored, .runEngine (some sampleReply), .readTail, .build .asStored]

def sampleStage : Event FiniteF64 := .stage 600 .asStored (fun _ => .done)

theorem evaluations_true_sample :
    letI := sampleDigest
    EvaluationsTrue sampleConfig (Run.exec (step sampleConfig) (State.initial (fun _ => none))
      (.deliver samplePayload.sealed :: sampleStage :: sampleRest)) := by
  let := sampleDigest
  apply evaluations_true sampleConfig
  refine ⟨fun _ _ _ => trivial, fun _ d hd => ⟨rfl, ?_⟩, trivial, ?_, trivial, trivial, trivial⟩
  · revert d
    apply found_of_no_slash (by decide)
    intro d hd
    have hlatest := ((mem_stagedDeltas _ _ _ d).1 hd).2
    have hchain : chainOf (addLatticeBlock ∅ samplePayload.sealed) d.peer =
        if "peer" = d.peer then [samplePayload.sealed] else [] := chainOf_add_sealed _ _
    by_cases hpeer : "peer" = d.peer
    · rw [← hpeer]
      decide
    · rw [if_neg hpeer] at hchain
      exact absurd (hchain ▸ hlatest) (by simp [latestProposal])
  · exact fun st pythonArgs _ d _ _ => rfl

/-- A peer whose first Proposal comes right after staging is listed and judged all the same, though
nothing was staged for it. -/
theorem evaluations_overtaken : ¬ ∃ _ : Sha256, ∀ (cfg : Config) (disk : Disk)
    (events : List (Event FiniteF64)),
    EvaluationsTrue cfg (Run.exec (step cfg) (State.initial disk) events) := by
  intro hall
  obtain ⟨_, h⟩ := hall
  have htrue := h sampleConfig (fun _ => none)
    ([sampleStage, .deliver samplePayload.sealed] ++ sampleRest)
  have hchains : addLatticeBlock ∅ samplePayload.sealed =
      HashMap.push ∅ "peer" samplePayload.sealed := add_of_hashOk ∅ (hashOk_sealed _)
  have hstaged : Run.exec (step sampleConfig) (State.initial (fun _ => none))
      [sampleStage, .deliver samplePayload.sealed] =
      ⟨HashMap.push ∅ "peer" samplePayload.sealed, fun _ => none, .staged ⟨600, []⟩, []⟩ := by
    rw [← hchains]
    rfl
  rw [Run.exec_append, hstaged] at htrue
  have hjudges : JudgesStaged sampleConfig ⟨600, []⟩ _ _ := htrue _ (List.mem_cons_self)
  obtain ⟨d, hd, -⟩ := hjudges "peer" _ _ _ rfl (by decide)
  exact absurd hd (List.not_mem_nil)

end Slakshna.Epoch

import Slakshna.Net.Cluster
import Slakshna.Chain.Committee

/-! What a run of the cluster leaves of each node's chain at the others. -/
namespace Slakshna.Cluster
open LatticeBlock Chains Contribution Committee
variable {N T : Type} (c : F64Codec T)

def wideType : LatticeBlockType FiniteF64 → LatticeBlockType F64
  | .proposal payloadHash compressedDelta => .proposal payloadHash compressedDelta
  | .evaluation targetNode proposalHash lossDrop trustScore =>
    .evaluation targetNode proposalHash lossDrop.val trustScore.val

def wide (b : LatticeBlock FiniteF64) : LatticeBlock F64 :=
  ⟨b.nodeId, b.prevHash, wideType b.blockType, b.signature, b.hash⟩

def finite? (x : F64) : Option FiniteF64 := if h : x.IsFinite then some ⟨x, h⟩ else none

def narrowType? : LatticeBlockType F64 → Option (LatticeBlockType FiniteF64)
  | .proposal payloadHash compressedDelta => some (.proposal payloadHash compressedDelta)
  | .evaluation targetNode proposalHash lossDrop trustScore => do
    let lossDrop ← finite? lossDrop
    let trustScore ← finite? trustScore
    return .evaluation targetNode proposalHash lossDrop trustScore

def narrow? (b : LatticeBlock F64) : Option (LatticeBlock FiniteF64) :=
  (narrowType? b.blockType).map (fun t => ⟨b.nodeId, b.prevHash, t, b.signature, b.hash⟩)

theorem finite_val (x : FiniteF64) : finite? x.val = some x := dif_pos x.finite

theorem narrow_wide (t : LatticeBlockType FiniteF64) : narrowType? (wideType t) = some t := by
  cases t with
  | proposal p d => rfl
  | evaluation t q l s => simp [wideType, narrowType?, finite_val]

theorem val_of_finite {x : F64} {y : FiniteF64} (h : finite? x = some y) : y.val = x := by
  unfold finite? at h
  split at h
  · rw [← Option.some.inj h]
  · cases h

theorem wide_of_narrow {t : LatticeBlockType F64} {u : LatticeBlockType FiniteF64}
    (h : narrowType? t = some u) : wideType u = t := by
  cases t with
  | proposal p d => rw [← Option.some.inj h]; rfl
  | evaluation t q l s =>
    simp only [narrowType?, Option.bind_eq_bind, Option.bind_eq_some_iff, Option.pure_def,
      Option.some.injEq] at h
    obtain ⟨l', hl, s', hs, rfl⟩ := h
    simp [wideType, val_of_finite hl, val_of_finite hs]

def readType? (t : LatticeBlockType FiniteF64) : Option (LatticeBlockType FiniteF64) :=
  (Wire.decodeBlockType c (Wire.encodeBlockType c (wideType t))).bind narrowType?

def fromSlice (m : Json T) : Option (LatticeBlock FiniteF64) :=
  (Wire.decodeNewLatticeBlock c m).bind narrow?

theorem fromSlice_encode (b : LatticeBlock FiniteF64) :
    fromSlice c (Wire.encodeNewLatticeBlock c (wide b)) =
      (readType? c b.blockType).map (fun t => { b with blockType := t }) := by
  rw [fromSlice, Wire.decodeNew_encodeNew, Option.bind_map, readType?, Option.map_bind]
  rfl

def jsonCodec : Codec FiniteF64 where
  Message := Json T
  toVec b := Wire.encodeNewLatticeBlock c (wide b)
  fromSlice := fromSlice c
  author b b' h := by
    rw [fromSlice_encode] at h
    obtain ⟨t, _, rfl⟩ := Option.map_eq_some_iff.1 h
    rfl
  proposal b h := by
    have hread : readType? c b.blockType = some b.blockType := by
      cases htype : b.blockType with
      | proposal p d => rw [readType?, wideType, Wire.decodeType_proposal]; rfl
      | evaluation t q l s => simp [IsProposal, target?, htype] at h
    rw [fromSlice_encode, hread]
    rfl

def Survives (b : LatticeBlock FiniteF64) : Prop :=
  ∀ x ∈ Wire.numbers (wideType b.blockType), c.Survives x

theorem readType_same_iff (b : LatticeBlock FiniteF64) :
    readType? c b.blockType = some b.blockType ↔ Survives c b := by
  rw [Survives, ← Wire.decodeType_same_iff, readType?]
  constructor
  · intro h
    obtain ⟨t, ht, hnarrow⟩ := Option.bind_eq_some_iff.1 h
    rw [ht, wide_of_narrow hnarrow]
  · intro h
    rw [h]
    exact narrow_wide b.blockType

section Carried
variable [Sha256]

omit [Sha256] in
theorem firstField_read {t u : LatticeBlockType FiniteF64} (h : readType? c t = some u) :
    firstField u = firstField t := by
  obtain ⟨v, hv, hnarrow⟩ := Option.bind_eq_some_iff.1 h
  have hwide : ∀ t : LatticeBlockType FiniteF64, firstField (wideType t) = firstField t := by
    intro t
    cases t <;> rfl
  rw [← hwide u, wide_of_narrow hnarrow, Wire.firstField_decoded c hv, hwide]

theorem carried_json (hsha : Function.Injective Sha256.digest) {b b' : LatticeBlock FiniteF64}
    (hok : HashOk b) : carried? (jsonCodec c) b = some b' ↔ b' = b ∧ Survives c b := by
  have hread := fromSlice_encode c b
  constructor
  · intro h
    obtain ⟨hslice, hok'⟩ := Option.filter_eq_some_iff.1 h
    have hmap : (readType? c b.blockType).map (fun t => { b with blockType := t }) = some b' :=
      hread.symm.trans hslice
    obtain ⟨t, ht, rfl⟩ := Option.map_eq_some_iff.1 hmap
    have hok' : b.hash = calculateHash { b with blockType := t } := of_decide_eq_true hok'
    have hhash : b.calculateHash = calculateHash { b with blockType := t } := hok.symm.trans hok'
    have hcuts : cuts b = cuts { b with blockType := t } := by
      simp [cuts, firstField_read c ht]
    have hsame := sameContent_of_preimage_eq ((calculateHash_eq_iff hsha _ _).1 hhash) hcuts
    have htype : t = b.blockType := hsame.2.2.symm
    subst htype
    exact ⟨rfl, (readType_same_iff c b).1 ht⟩
  · rintro ⟨rfl, hsurvives⟩
    rw [(readType_same_iff c b').2 hsurvives] at hread
    exact Option.filter_eq_some_iff.2 ⟨hread, by simpa using hok⟩

theorem carried_iff (hsha : Function.Injective Sha256.digest) {b : LatticeBlock FiniteF64}
    (hb : HashOk b ∨ IsProposal b) (b' : LatticeBlock FiniteF64) :
    carried? (jsonCodec c) b = some b' ↔ b' = b ∧ HashOk b ∧ Survives c b := by
  constructor
  · intro h
    have hmade : MadeBy ⟨b.nodeId, "", ""⟩ b := ⟨rfl, hb⟩
    have hok : HashOk b := (stored_toVec hmade h).1
    obtain ⟨heq, hsurvives⟩ := (carried_json c hsha hok).1 h
    exact ⟨heq, hok, hsurvives⟩
  · rintro ⟨heq, hok, hsurvives⟩
    exact (carried_json c hsha hok).2 ⟨heq, hsurvives⟩

open Classical in
theorem carried_made (hsha : Function.Injective Sha256.digest) {bs : List (LatticeBlock FiniteF64)}
    (h : ∀ b ∈ bs, HashOk b ∨ IsProposal b) :
    bs.filterMap (carried? (jsonCodec c)) = bs.filter (fun b => HashOk b ∧ Survives c b) := by
  induction bs with
  | nil => rfl
  | cons b bs ih =>
    have hb := carried_iff c hsha (h b List.mem_cons_self)
    have hbs := ih (fun b hb => h b (List.mem_cons_of_mem _ hb))
    by_cases hkept : HashOk b ∧ Survives c b
    · rw [List.filterMap_cons_some ((hb b).2 ⟨rfl, hkept⟩), hbs,
        List.filter_cons_of_pos (by simpa using hkept)]
    · have hnone : carried? (jsonCodec c) b = none :=
        Option.eq_none_iff_forall_ne_some.2 (fun b' h => hkept ((hb b').1 h).2)
      rw [List.filterMap_cons_none hnone, hbs, List.filter_cons_of_neg (by simpa using hkept)]

open Classical in
theorem carried_chain (hsha : Function.Injective Sha256.digest) {bs : List (LatticeBlock FiniteF64)}
    (hok : ∀ b ∈ bs, HashOk b) :
    bs.filterMap (carried? (jsonCodec c)) = bs.filter (fun b => Survives c b) := by
  rw [carried_made c hsha (fun b hb => Or.inl (hok b hb))]
  apply List.filter_congr
  intro b hb
  simp [hok b hb]

end Carried

section Reached
variable {F : Type} [LeBytes F] [Sha256]

def Reached (chains : LatticeChains F) : Prop := ∃ blocks, chains = receive ∅ blocks

theorem reached_add {chains : LatticeChains F} (h : Reached chains) (b : LatticeBlock F) :
    Reached (addLatticeBlock chains b) := by
  obtain ⟨blocks, rfl⟩ := h
  exact ⟨blocks ++ [b], (Run.exec_append addLatticeBlock ∅ blocks [b]).symm⟩

theorem reached_receive {chains : LatticeChains F} (h : Reached chains)
    (bs : List (LatticeBlock F)) : Reached (receive chains bs) := by
  obtain ⟨blocks, rfl⟩ := h
  exact ⟨blocks ++ bs, (Run.exec_append addLatticeBlock ∅ blocks bs).symm⟩

theorem Reached.hashOk {chains : LatticeChains F} (h : Reached chains) {id : String}
    {b : LatticeBlock F} (hb : b ∈ chainOf chains id) : HashOk b := by
  obtain ⟨blocks, rfl⟩ := h
  rw [chainOf_receive, chainOf_empty, List.nil_append, List.mem_filter] at hb
  exact (of_decide_eq_true hb.2).1

theorem Reached.perm [DecidableEq F] {chains chains' : LatticeChains F} (h : Reached chains)
    (h' : Reached chains') (hperm : ∀ id, (chainOf chains id).Perm (chainOf chains' id)) :
    chains.allValues.Perm chains'.allValues := by
  obtain ⟨blocks, rfl⟩ := h
  obtain ⟨blocks', rfl⟩ := h'
  have haccepted : (blocks.filter (fun b => HashOk b)).Perm
      (blocks'.filter (fun b => HashOk b)) := by
    rw [List.perm_iff_count]
    intro b
    have hchain := (hperm b.nodeId).count_eq b
    have hcount : ∀ bs : List (LatticeBlock F),
        (bs.filter (fun b' => HashOk b' ∧ b'.nodeId = b.nodeId)).count b =
          (bs.filter (fun b => HashOk b)).count b := by
      intro bs
      simp only [Bool.decide_and]
      rw [← List.filter_filter, List.filter_comm, List.count_filter (by simp)]
    simpa only [chainOf_receive, chainOf_empty, List.nil_append, hcount] using hchain
  have hl := allValues_receive ∅ blocks
  have hr := allValues_receive ∅ blocks'
  exact hl.trans ((haccepted.append_right _).trans hr.symm)

variable [Zero F]

theorem reached_epoch (cfg : Epoch.Config) (s : Epoch.State F) (e : Epoch.Event F)
    (h : Reached s.chains) : Reached (Epoch.step cfg s e).chains := by
  have hmove := Epoch.step_moves cfg s e
  generalize Epoch.step cfg s e = s' at hmove
  cases hmove with
  | deliver block => exact reached_add h block
  | append st run myPrevHash myProposal evaluations => exact reached_receive h _
  | idle | stage | listPeers | runEngine | readTail | build => exact h

structure Closed (cfg : N → Epoch.Config) (n : Node F) : Prop where
  reached : Reached n.epoch.chains
  authors : ∀ id, (∀ i, (cfg i).nodeId ≠ id) → chainOf n.epoch.chains id = []

variable [DecidableEq N] {codec : Codec F} {cfg : N → Epoch.Config}

omit [LeBytes F] [Sha256] [Zero F] in
theorem forall_setNode {P : Node F → Prop} {s : State N codec} {a : N} {n : Node F}
    (h : ∀ i, P (s.node i)) (hn : P n) (i : N) : P ((setNode s a n).node i) :=
  (Function.forall_update_iff s.node (fun _ n => P n)).2 ⟨hn, fun i _ => h i⟩ i

theorem closed_step (s : State N codec) (e : Event N F) (hsound : Sound cfg s)
    (h : ∀ i, Closed cfg (s.node i)) : ∀ i, Closed cfg ((step cfg s e).node i) := by
  have hmove := step_moves cfg s e
  generalize step cfg s e = s' at hmove
  cases hmove with
  | idle | lose => exact h
  | loop a e he hready =>
    refine forall_setNode h ⟨reached_epoch (cfg a) _ e (h a).reached, fun id hid => ?_⟩
    rw [chainOf_loop _ e he (hsound.node a).pending id, (h a).authors id hid,
      if_neg (Ne.symm (hid a)), List.append_nil]
  | broadcast a b rest hready => exact forall_setNode h ⟨(h a).reached, (h a).authors⟩
  | publish a reached b rest hready => exact forall_setNode h ⟨(h a).reached, (h a).authors⟩
  | deliver a c older newer m hsplit =>
    refine forall_setNode h ⟨?_, fun id hid => ?_⟩
    · unfold receiveMessage
      cases codec.fromSlice m with
      | none => exact (h c).reached
      | some block => exact reached_epoch (cfg c) _ (.deliver block) (h c).reached
    · rw [chainOf_receive_other (hsound.author hsplit) (hid a), (h c).authors id hid]

theorem closed_run (hids : Function.Injective (fun i => (cfg i).nodeId)) (disk : N → Disk)
    (events : List (Event N F)) :
    ∀ i, Closed cfg ((Run.exec (step cfg) (State.initial disk : State N codec) events).node i) := by
  induction events using List.reverseRecOn with
  | nil => exact fun i => ⟨⟨[], rfl⟩, fun id _ => rfl⟩
  | append_singleton events e ih =>
    rw [Run.exec_append]
    exact closed_step _ e (sound_run hids disk events) ih

end Reached

section Results
variable [DecidableEq N] [Sha256] {cfg : N → Epoch.Config}

def underway (links : N → N → List (Json T)) (i j : N) : List (LatticeBlock FiniteF64) :=
  (links i j).filterMap (stored? (jsonCodec c))

def ownChain (cfg : N → Epoch.Config) (s : State N (jsonCodec c)) (i : N) :
    List (LatticeBlock FiniteF64) := chainOf (s.node i).epoch.chains (cfg i).nodeId

def replica (cfg : N → Epoch.Config) (s : State N (jsonCodec c)) (i j : N) :
    List (LatticeBlock FiniteF64) := chainOf (s.node j).epoch.chains (cfg i).nodeId

open Classical in
theorem link_run (hids : Function.Injective (fun i => (cfg i).nodeId))
    (hsha : Function.Injective Sha256.digest) (disk : N → Disk) (events : List (Event N FiniteF64))
    (i j : N) :
    let s := Run.exec (step cfg) (State.initial disk : State N (jsonCodec c)) events
    link cfg s i j = {
      sent := (ownChain c cfg s i).filter (fun b => Survives c b)
      arrived := replica c cfg s i j
      lost := underway c s.lost i j
      transit := underway c s.flight i j ++
        (unpublished (s.node i)).filter (fun b => HashOk b ∧ Survives c b) } := by
  intro s
  have hok : ∀ b ∈ ownChain c cfg s i, HashOk b :=
    fun b hb => (closed_run hids disk events i).reached.hashOk hb
  have hmade : ∀ b ∈ unpublished (s.node i), HashOk b ∨ IsProposal b :=
    fun b hb => (((sound_run hids disk events).node i).queued b hb).2
  rw [← carried_chain c hsha hok, ← carried_made c hsha hmade]
  rfl

open Classical in
/-- Whatever the order of deliveries and whatever is lost, a node's own chain is what its loop
appended, linked by hashes, and each block of it whose scores survive is, once, at the other node, lost
on the way, under way, or still to be published. Nobody else adds to the copy. -/
theorem replica_account (hids : Function.Injective (fun i => (cfg i).nodeId))
    (hsha : Function.Injective Sha256.digest) (disk : N → Disk)
    (events : List (Event N FiniteF64)) {i j : N} (hij : i ≠ j) :
    let s := Run.exec (step cfg) (State.initial disk : State N (jsonCodec c)) events
    ownChain c cfg s i = (s.node i).epoch.appended ∧ HashLinked (ownChain c cfg s i) ∧
    ((ownChain c cfg s i).filter (fun b => Survives c b)).Perm
      (replica c cfg s i j ++ (underway c s.lost i j ++ (underway c s.flight i j ++
        (unpublished (s.node i)).filter (fun b => HashOk b ∧ Survives c b)))) := by
  intro s
  have hown := ((sound_run hids disk events : Sound cfg s).node i).own
  have hchain : ownChain c cfg s i = (s.node i).epoch.appended := hown.chain
  refine ⟨hchain, by rw [hchain]; exact hown.linked, ?_⟩
  have hlink := link_conserved (jsonCodec c) hids disk events
    (fun e _ => keeps_noPromise e) hij
  rw [link_run c hids hsha] at hlink
  exact hlink.account

omit [Sha256] in
theorem linked_beginning {F : Type} {chain chain' : List (LatticeBlock F)} (h : chain' <+: chain)
    (hlinked : HashLinked chain) : HashLinked chain' := by
  obtain ⟨rest, rfl⟩ := h
  exact ((linkedFrom_append _ _ _).1 hlinked).1

open Classical in
/-- Where nothing is lost and each link hands over the oldest message first, the copy is the beginning
of the author's chain, as far as scores survive; where all of them do, it is linked too. -/
theorem replica_inOrder (hids : Function.Injective (fun i => (cfg i).nodeId))
    (hsha : Function.Injective Sha256.digest) (disk : N → Disk)
    (events : List (Event N FiniteF64)) (hkeeps : ∀ e ∈ events, Keeps Link.reliable e) {i j : N}
    (hij : i ≠ j) :
    let s := Run.exec (step cfg) (State.initial disk : State N (jsonCodec c)) events
    (ownChain c cfg s i).filter (fun b => Survives c b) =
      replica c cfg s i j ++ (underway c s.flight i j ++
        (unpublished (s.node i)).filter (fun b => HashOk b ∧ Survives c b)) ∧
    ((∀ b ∈ ownChain c cfg s i, Survives c b) →
      replica c cfg s i j <+: ownChain c cfg s i ∧ HashLinked (replica c cfg s i j)) := by
  intro s
  have hlink := link_conserved (jsonCodec c) hids disk events hkeeps hij
  rw [link_run c hids hsha] at hlink
  have hqueue := hlink.queue trivial trivial
  refine ⟨hqueue.symm, fun hsurvives => ?_⟩
  have hall : (ownChain c cfg s i).filter (fun b => Survives c b) = ownChain c cfg s i :=
    List.filter_eq_self.2 (by simpa using hsurvives)
  have hbegins : replica c cfg s i j <+: ownChain c cfg s i := by
    rw [← hall]
    exact ⟨_, hqueue⟩
  have hown := ((sound_run hids disk events : Sound cfg s).node i).own
  have hchain : ownChain c cfg s i = (s.node i).epoch.appended := hown.chain
  exact ⟨hbegins, linked_beginning hbegins (by rw [hchain]; exact hown.linked)⟩

end Results

def sampleConfigs (i : Bool) : Epoch.Config :=
  if i then ⟨"peer", "./data-node2", "data_node"⟩ else ⟨"node", "./data-node1", "data_node"⟩

theorem sampleConfigs_injective : Function.Injective (fun i => (sampleConfigs i).nodeId) := by
  decide

def sampleEpoch (i : Bool) : List (Event Bool FiniteF64) :=
  [.loop i (.stage 600 .asStored (fun _ => .done)), .loop i (.listPeers .asStored),
    .loop i (.runEngine (some ⟨fun _ => .half, fun _ => true, "m", "c"⟩)), .loop i .readTail,
    .loop i (.build .asStored), .loop i .append]

def sampleEvents : List (Event Bool FiniteF64) :=
  sampleEpoch false ++ [.broadcast false, .publish false (fun _ => true), .deliver false true 0]

theorem survives_exact (b : LatticeBlock FiniteF64) : Survives F64Codec.exact b := by
  intro x hx
  cases htype : b.blockType with
  | proposal p d => simp [wideType, htype, Wire.numbers] at hx
  | evaluation t q l s =>
    simp only [wideType, htype, Wire.numbers, List.mem_cons, List.not_mem_nil, or_false] at hx
    rcases hx with rfl | rfl
    · exact ⟨l.finite, rfl⟩
    · exact ⟨s.finite, rfl⟩

theorem keeps_sampleEvents : ∀ e ∈ sampleEvents, Keeps Link.reliable e := by
  simp [sampleEvents, sampleEpoch, Keeps]

open Classical in
theorem replica_account_sample :
    letI := sampleDigest
    let c := F64Codec.exact
    let s := Run.exec (step sampleConfigs) (State.initial (fun _ _ => none) : State Bool (jsonCodec c))
      (sampleEvents ++ [.lose false true 0])
    ownChain c sampleConfigs s false = (s.node false).epoch.appended ∧
    HashLinked (ownChain c sampleConfigs s false) ∧
    ((ownChain c sampleConfigs s false).filter (fun b => Survives c b)).Perm
      (replica c sampleConfigs s false true ++ (underway c s.lost false true ++
        (underway c s.flight false true ++
          (unpublished (s.node false)).filter (fun b => HashOk b ∧ Survives c b)))) :=
  letI := sampleDigest
  replica_account F64Codec.exact sampleConfigs_injective sampleDigest_injective _ _ (by decide)

theorem replica_inOrder_sample :
    letI := sampleDigest
    let c := F64Codec.exact
    let s := Run.exec (step sampleConfigs) (State.initial (fun _ _ => none) : State Bool (jsonCodec c))
      sampleEvents
    replica c sampleConfigs s false true <+: ownChain c sampleConfigs s false ∧
      HashLinked (replica c sampleConfigs s false true) :=
  letI := sampleDigest
  (replica_inOrder F64Codec.exact sampleConfigs_injective sampleDigest_injective _ sampleEvents
    keeps_sampleEvents (by decide)).2 (fun b _ => survives_exact b)

end Slakshna.Cluster

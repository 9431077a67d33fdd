import Slakshna.Net.Replication

/-! A cluster whose nodes die and start again. A node comes back under the same id, which its key on
disk makes, but its chains and its queues were in memory. -/
namespace Slakshna.Restart
open LatticeBlock Chains Contribution Cluster
variable {N F : Type}

structure Life (F : Type) where
  chain : List (LatticeBlock F)
  unpublished : List (LatticeBlock F)

/-- `lives` and `copies` are kept for the proofs: the lives of node `i` that are over, and what was
held of `i` in the lives of `j` that are over. -/
structure State (N : Type) {F : Type} (codec : Codec F) where
  now : Cluster.State N codec
  lives : N → List (Life F)
  copies : N → N → List (LatticeBlock F)

inductive Event (N F : Type) where
  | run (e : Cluster.Event N F)
  | restart (i : N) (disk : Disk)

section Step
variable [DecidableEq N] [LeBytes F] [Sha256] [Zero F] {codec : Codec F}

omit [DecidableEq N] [LeBytes F] [Sha256] [Zero F] in
def State.initial (disk : N → Disk) : State N codec :=
  ⟨Cluster.State.initial disk, fun _ => [], fun _ _ => []⟩

def freshNode (disk : Disk) : Node F := ⟨Epoch.State.initial disk, [], []⟩

/-- A node may die between any two steps; its disk is then as it may be. -/
def step (cfg : N → Epoch.Config) (s : State N codec) : Event N F → State N codec
  | .run e => { s with now := Cluster.step cfg s.now e }
  | .restart i disk =>
    let n := s.now.node i
    { now := setNode s.now i (freshNode disk)
      lives := Function.update s.lives i
        (s.lives i ++ [⟨chainOf n.epoch.chains (cfg i).nodeId, unpublished n⟩])
      copies := fun a j =>
        if j = i then s.copies a j ++ chainOf n.epoch.chains (cfg a).nodeId else s.copies a j }

end Step

section Node
variable [LeBytes F] [Sha256]

def Queued (cfg : Epoch.Config) (n : Node F) : Prop :=
  (unpublished n).filter (fun b => HashOk b) <:+ chainOf n.epoch.chains cfg.nodeId

def published (life : Life F) : List (LatticeBlock F) :=
  life.chain.take (life.chain.length - (life.unpublished.filter (fun b => HashOk b)).length)

structure Lived (life : Life F) : Prop where
  hashOk : ∀ b ∈ life.chain, HashOk b
  linked : HashLinked life.chain
  queued : life.unpublished.filter (fun b => HashOk b) <:+ life.chain

theorem Lived.chain_eq {life : Life F} (h : Lived life) :
    published life ++ life.unpublished.filter (fun b => HashOk b) = life.chain := by
  obtain ⟨first, hchain⟩ := h.queued
  rw [published, ← hchain]
  simp

variable [Zero F]

theorem queued_loop {cfg : Epoch.Config} {n : Node F} (hsound : SoundNode cfg n) (e : Epoch.Event F)
    (he : ∀ b, e ≠ .deliver b) (hready : n.toBroadcast = []) (h : Queued cfg n) :
    Queued cfg { n with
      epoch := Epoch.step cfg n.epoch e, toBroadcast := appends n.epoch.phase e } := by
  obtain ⟨first, hfirst⟩ := h
  refine ⟨first, ?_⟩
  rw [chainOf_loop n.epoch e he hsound.pending cfg.nodeId, if_pos rfl, ← hfirst]
  simp [unpublished, hready]

end Node

section Whole
variable [DecidableEq N] [LeBytes F] [Sha256] [Zero F] {codec : Codec F} {cfg : N → Epoch.Config}

theorem queued_step (hids : Function.Injective (fun i => (cfg i).nodeId)) {s : Cluster.State N codec}
    (e : Cluster.Event N F) (hsound : Sound cfg s) (h : ∀ i, Queued (cfg i) (s.node i)) :
    ∀ i, Queued (cfg i) ((Cluster.step cfg s e).node i) := by
  have hupdate : ∀ {a : N} {n : Node F}, Queued (cfg a) n →
      ∀ i, Queued (cfg i) (Function.update s.node a n i) := fun hn =>
    (Function.forall_update_iff s.node (fun i n => Queued (cfg i) n)).2 ⟨hn, fun i _ => h i⟩
  have hmove := step_moves cfg s e
  generalize Cluster.step cfg s e = s' at hmove
  cases hmove with
  | idle | lose => exact h
  | loop a e he hready => exact hupdate (queued_loop (hsound.node a) e he hready (h a))
  | broadcast a b rest hready =>
    refine hupdate ?_
    have hsame := h a
    simp only [Queued, unpublished, hready] at hsame
    simpa [Queued, unpublished] using hsame
  | publish a reached b rest hready =>
    refine hupdate (List.IsSuffix.trans ?_ (h a))
    apply List.IsSuffix.filter
    exact ⟨[b], by simp [unpublished, hready]⟩
  | deliver a c older newer m hsplit =>
    refine hupdate ?_
    have hne := hsound.ne_of_split hsplit
    have hchain : chainOf (receiveMessage (cfg c) (s.node c).epoch m).chains (cfg c).nodeId =
        chainOf (s.node c).epoch.chains (cfg c).nodeId :=
      chainOf_receive_other (hsound.author hsplit) (fun heq => hne (hids heq))
    exact (h c).trans (hchain ▸ List.suffix_rfl)

structure Sane (cfg : N → Epoch.Config) (s : State N codec) : Prop where
  sound : Sound cfg s.now
  closed : ∀ i, Closed cfg (s.now.node i)
  queued : ∀ i, Queued (cfg i) (s.now.node i)
  lived : ∀ i, ∀ life ∈ s.lives i, Lived life

omit [DecidableEq N] [Zero F] in
theorem sane_initial (cfg : N → Epoch.Config) (disk : N → Disk) :
    Sane cfg (State.initial disk : State N codec) where
  sound := sound_initial cfg disk
  closed := fun _ => ⟨⟨[], rfl⟩, fun _ _ => rfl⟩
  queued := fun _ => List.nil_suffix
  lived := fun _ _ h => by cases h

omit [DecidableEq N] [Zero F] in
theorem Sane.now_lived {s : State N codec} (h : Sane cfg s) (i : N) :
    Lived ⟨chainOf (s.now.node i).epoch.chains (cfg i).nodeId, unpublished (s.now.node i)⟩ where
  hashOk := fun _ hb => (h.closed i).reached.hashOk hb
  linked := by
    have hown := (h.sound.node i).own
    have hchain : chainOf (s.now.node i).epoch.chains (cfg i).nodeId =
        (s.now.node i).epoch.appended := hown.chain
    rw [hchain]
    exact hown.linked
  queued := h.queued i

theorem sane_step (hids : Function.Injective (fun i => (cfg i).nodeId)) (s : State N codec)
    (e : Event N F) (h : Sane cfg s) : Sane cfg (step cfg s e) := by
  cases e with
  | run e =>
    exact ⟨sound_step hids s.now e h.sound, closed_step s.now e h.sound h.closed,
      queued_step hids e h.sound h.queued, h.lived⟩
  | restart a disk =>
    have hfresh : Sane cfg (State.initial (fun _ => disk) : State N codec) := sane_initial cfg _
    refine ⟨⟨?_, h.sound.flight, h.sound.notSelf⟩, ?_, ?_, ?_⟩
    · exact soundNode_update h.sound.node (hfresh.sound.node a)
    · exact forall_setNode h.closed (hfresh.closed a)
    · exact (Function.forall_update_iff s.now.node (fun i n => Queued (cfg i) n)).2
        ⟨hfresh.queued a, fun i _ => h.queued i⟩
    · refine (Function.forall_update_iff s.lives (fun _ ls => ∀ life ∈ ls, Lived life)).2
        ⟨fun life hlife => ?_, fun i _ => h.lived i⟩
      rcases List.mem_append.1 hlife with hold | hnew
      · exact h.lived a life hold
      · exact (List.mem_singleton.1 hnew) ▸ h.now_lived a

def before (s : State N codec) (i : N) : List (LatticeBlock F) := (s.lives i).flatMap published

def lifeLink (cfg : N → Epoch.Config) (s : State N codec) (i j : N) : Link (LatticeBlock F) :=
  (link cfg s.now i j).after ((before s i).filterMap (carried? codec)) (s.copies i j)

def Keeps (p : Link.Promise) : Event N F → Prop
  | .run e => Cluster.Keeps p e
  | .restart _ _ => True

variable {p : Link.Promise} {i j : N}

theorem conserved_author {s : State N codec} (h : Sane cfg s) (hij : i ≠ j) (disk : Disk)
    (hlink : Link.Conserved p (lifeLink cfg s i j)) :
    Link.Conserved p (lifeLink cfg (step cfg s (.restart i disk)) i j) := by
  have hchain := (h.now_lived i).chain_eq
  have hlost : ((unpublished (s.now.node i)).filter (fun b => HashOk b)).filterMap
      (carried? codec) = (unpublished (s.now.node i)).filterMap (carried? codec) :=
    carried_filter (h.sound.node i).queued
  set own := chainOf (s.now.node i).epoch.chains (cfg i).nodeId with hown
  set mine := unpublished (s.now.node i) with hmine
  have hsplit : own.filterMap (carried? codec) =
      (published ⟨own, mine⟩).filterMap (carried? codec) ++ mine.filterMap (carried? codec) := by
    rw [← hlost, ← List.filterMap_append, hchain]
  have hcut : Link.Conserved p ⟨((before s i).filterMap (carried? codec) ++
      (published ⟨own, mine⟩).filterMap (carried? codec)) ++ mine.filterMap (carried? codec),
      s.copies i j ++ chainOf (s.now.node j).epoch.chains (cfg i).nodeId,
      (s.now.lost i j).filterMap (stored? codec),
      (s.now.flight i j).filterMap (stored? codec) ++ mine.filterMap (carried? codec)⟩ := by
    rw [List.append_assoc, ← hsplit]
    exact hlink
  convert hcut.cut using 1
  have hj : (step cfg s (.restart i disk)).now.node j = s.now.node j :=
    Function.update_of_ne hij.symm _ _
  have hi : (step cfg s (.restart i disk)).now.node i = freshNode disk := Function.update_self _ _ _
  have hbefore : before (step cfg s (.restart i disk)) i = before s i ++ published ⟨own, mine⟩ := by
    simp [before, step, hown, hmine]
  simp only [lifeLink, Link.after, link, hi, hj, hbefore]
  simp [step, hij.symm, setNode, freshNode, unpublished, Epoch.State.initial]

theorem conserved_step (hids : Function.Injective (fun i => (cfg i).nodeId)) {s : State N codec}
    (h : Sane cfg s) (hij : i ≠ j) (e : Event N F) (hkeeps : Keeps p e)
    (hlink : Link.Conserved p (lifeLink cfg s i j)) :
    Link.Conserved p (lifeLink cfg (step cfg s e) i j) := by
  cases e with
  | run e =>
    exact Link.conserved_moves hlink
      (Link.moves_after _ _ (link_moves hids h.sound hij e hkeeps))
  | restart a disk =>
    by_cases hi : i = a
    · subst hi
      exact conserved_author h hij disk hlink
    · have hown : (step cfg s (.restart a disk)).now.node i = s.now.node i :=
        Function.update_of_ne hi _ _
      have hbefore : before (step cfg s (.restart a disk)) i = before s i := by
        simp [before, step, Function.update_of_ne hi]
      convert hlink using 1
      by_cases hj : j = a
      · subst hj
        have hcopy : (step cfg s (.restart j disk)).now.node j = freshNode disk :=
          Function.update_self _ _ _
        simp only [lifeLink, Link.after, link, hown, hcopy, hbefore]
        simp [step, setNode, freshNode, Epoch.State.initial]
      · have hcopy : (step cfg s (.restart a disk)).now.node j = s.now.node j :=
          Function.update_of_ne hj _ _
        simp only [lifeLink, Link.after, link, hown, hcopy, hbefore]
        simp [step, setNode, hj]

theorem sane_run (hids : Function.Injective (fun i => (cfg i).nodeId)) (disk : N → Disk)
    (events : List (Event N F)) :
    Sane cfg (Run.exec (step cfg) (State.initial disk : State N codec) events) :=
  Run.invariant_of_step (sane_step hids) (sane_initial cfg disk) events

theorem lifeLink_conserved (codec : Codec F) (hids : Function.Injective (fun i => (cfg i).nodeId))
    (disk : N → Disk) (events : List (Event N F)) (hkeeps : ∀ e ∈ events, Keeps p e) (hij : i ≠ j) :
    Link.Conserved p
      (lifeLink cfg (Run.exec (step cfg) (State.initial disk : State N codec) events) i j) := by
  induction events using List.reverseRecOn with
  | nil => exact Link.conserved_nil p
  | append_singleton events e ih =>
    rw [Run.exec_append]
    have hbefore := ih (fun e he => hkeeps e (List.mem_append_left _ he))
    exact conserved_step hids (sane_run hids disk events) hij e (hkeeps e (by simp)) hbefore

theorem copies_run (disk : N → Disk) (events : List (Event N F))
    (hj : ∀ disk, Event.restart j disk ∉ events) :
    (Run.exec (step cfg) (State.initial disk : State N codec) events).copies i j = [] := by
  induction events using List.reverseRecOn with
  | nil => rfl
  | append_singleton events e ih =>
    rw [Run.exec_append]
    have hbefore := ih (fun disk hmem => hj disk (List.mem_append_left _ hmem))
    cases e with
    | run e => exact hbefore
    | restart a disk' =>
      have hne : j ≠ a := by
        rintro rfl
        exact hj disk' (by simp)
      simpa [step, hne] using hbefore

end Whole

/-! Chains that begin anew -/

section Segments
variable {segments : List (List (LatticeBlock F))} {chain : List (LatticeBlock F)}

theorem head_of_begins (hsegments : ∀ segment ∈ segments, HashLinked segment) (hne : chain ≠ [])
    (hchain : chain <+: segments.flatten) : ∃ b bs, chain = b :: bs ∧ b.prevHash = genesisHash := by
  induction segments with
  | nil => exact absurd (List.prefix_nil.1 hchain) hne
  | cons segment segments ih =>
    cases segment with
    | nil => exact ih (fun s hs => hsegments s (List.mem_cons_of_mem _ hs)) hchain
    | cons b bs =>
      cases chain with
      | nil => exact absurd rfl hne
      | cons b' bs' =>
        have hhead : b' = b := (List.cons_prefix_cons.1 hchain).1
        exact ⟨b', bs', rfl, hhead ▸ (hsegments _ List.mem_cons_self).1⟩

theorem linked_last (segments : List (List (LatticeBlock F))) {segment : List (LatticeBlock F)}
    (hsegment : HashLinked segment) (hchain : chain <+: segments.flatten ++ segment)
    (hmore : segments.flatten.length < chain.length) (htail : tailHash segments.flatten = genesisHash)
    (hlinked : HashLinked segments.flatten) : HashLinked chain := by
  have hbegins : segments.flatten <+: chain :=
    List.prefix_of_prefix_length_le (List.prefix_append _ _) hchain hmore.le
  obtain ⟨rest, rfl⟩ := hbegins
  have hrest : rest <+: segment := (List.prefix_append_right_inj _).1 hchain
  refine (linkedFrom_append _ _ _).2 ⟨hlinked, ?_⟩
  rw [show tailFrom genesisHash segments.flatten = genesisHash from htail]
  exact linked_beginning hrest hsegment

theorem linked_iff (hsegments : ∀ segment ∈ segments, HashLinked segment)
    (hchain : chain <+: segments.flatten) :
    HashLinked chain ↔ ∀ k, (segments.take k).flatten.length < chain.length →
      tailHash (segments.take k).flatten = genesisHash := by
  constructor
  · intro hlinked k hk
    have hsplit : segments.flatten = (segments.take k).flatten ++ (segments.drop k).flatten := by
      rw [← List.flatten_append, List.take_append_drop]
    rw [hsplit] at hchain
    have hbegins := List.prefix_of_prefix_length_le (List.prefix_append _ _) hchain hk.le
    obtain ⟨rest, rfl⟩ := hbegins
    have hrest := (List.prefix_append_right_inj _).1 hchain
    have hne : rest ≠ [] := by
      rintro rfl
      simp at hk
    obtain ⟨b, bs, rfl, hb⟩ := head_of_begins
      (fun s hs => hsegments s (List.mem_of_mem_drop hs)) hne hrest
    exact ((linkedFrom_append _ _ _).1 hlinked).2.1.symm.trans hb
  · intro hcut
    induction segments using List.reverseRecOn generalizing chain with
    | nil =>
      rw [List.prefix_nil.1 hchain]
      trivial
    | append_singleton segments segment ih =>
      have hfirst : ∀ s ∈ segments, HashLinked s := fun s hs => hsegments s (by simp [hs])
      have hfirstcut : ∀ k, (segments.take k).flatten.length < chain.length →
          tailHash (segments.take k).flatten = genesisHash := by
        intro k hk
        have htake : (segments ++ [segment]).take (min k segments.length) = segments.take k := by
          rw [List.take_append_of_le_length (min_le_right _ _), ← List.take_eq_take_min]
        rw [← htake] at hk ⊢
        exact hcut _ hk
      rw [List.flatten_append, List.flatten_singleton] at hchain
      by_cases hmore : segments.flatten.length < chain.length
      · have hwhole : HashLinked segments.flatten :=
          ih hfirst List.prefix_rfl (fun k hk => hfirstcut k (hk.trans hmore))
        have htail := hfirstcut segments.length
        rw [List.take_length] at htail
        exact linked_last segments (hsegments segment (by simp)) hchain hmore (htail hmore) hwhole
      · exact ih hfirst (List.prefix_of_prefix_length_le hchain (List.prefix_append _ _)
          (not_lt.1 hmore)) hfirstcut

end Segments

section Results
variable {T : Type} (c : F64Codec T) [DecidableEq N] [Sha256] {cfg : N → Epoch.Config}

def chainsOver (cfg : N → Epoch.Config) (s : State N (jsonCodec c)) (i : N) :
    List (List (LatticeBlock FiniteF64)) := (s.lives i).map published ++ [ownChain c cfg s.now i]

omit [DecidableEq N] in
theorem linked_chainsOver {s : State N (jsonCodec c)} (h : Sane cfg s) (i : N) :
    ∀ chain ∈ chainsOver c cfg s i, HashLinked chain := by
  intro chain hchain
  rcases List.mem_append.1 hchain with hover | hnow
  · obtain ⟨life, hlife, rfl⟩ := List.mem_map.1 hover
    exact linked_beginning (List.take_prefix _ _) (h.lived i life hlife).linked
  · rw [List.mem_singleton.1 hnow]
    exact (h.now_lived i).linked

open Classical in
omit [DecidableEq N] in
theorem lifeLink_eq (hsha : Function.Injective Sha256.digest) {s : State N (jsonCodec c)}
    (h : Sane cfg s) (i j : N) : lifeLink cfg s i j = {
      sent := (chainsOver c cfg s i).flatten.filter (fun b => Survives c b)
      arrived := s.copies i j ++ replica c cfg s.now i j
      lost := underway c s.now.lost i j
      transit := underway c s.now.flight i j ++
        (unpublished (s.now.node i)).filter (fun b => HashOk b ∧ Survives c b) } := by
  have hown : ∀ b ∈ ownChain c cfg s.now i, HashOk b := (h.now_lived i).hashOk
  have hbefore : ∀ b ∈ before s i, HashOk b := by
    intro b hb
    obtain ⟨life, hlife, hb⟩ := List.mem_flatMap.1 hb
    exact (h.lived i life hlife).hashOk b (List.mem_of_mem_take hb)
  have hmade : ∀ b ∈ unpublished (s.now.node i), HashOk b ∨ IsProposal b :=
    fun b hb => ((h.sound.node i).queued b hb).2
  have hsent : (chainsOver c cfg s i).flatten.filter (fun b => Survives c b) =
      (before s i).filterMap (carried? (jsonCodec c)) ++
        (ownChain c cfg s.now i).filterMap (carried? (jsonCodec c)) := by
    rw [carried_chain c hsha hbefore, carried_chain c hsha hown, ← List.filter_append]
    simp [chainsOver, before, List.flatMap]
  rw [hsent, ← carried_made c hsha hmade]
  rfl

/-- Where the transport is reliable, scores survive and the reader lives on, its copy is the beginning
of the author's chains one after another. Each begins at the genesis hash, so the copy is linked exactly
if every chain that ended within it ended with that hash. -/
theorem restarted_replica (hids : Function.Injective (fun i => (cfg i).nodeId))
    (hsha : Function.Injective Sha256.digest) (disk : N → Disk)
    (events : List (Event N FiniteF64)) (hkeeps : ∀ e ∈ events, Keeps Link.reliable e) {i j : N}
    (hij : i ≠ j) (hj : ∀ disk, Event.restart j disk ∉ events) :
    let s := Run.exec (step cfg) (State.initial disk : State N (jsonCodec c)) events
    let chains := chainsOver c cfg s i
    (∀ b ∈ chains.flatten, Survives c b) →
    replica c cfg s.now i j <+: chains.flatten ∧
    (HashLinked (replica c cfg s.now i j) ↔
      ∀ k, (chains.take k).flatten.length < (replica c cfg s.now i j).length →
        tailHash (chains.take k).flatten = genesisHash) := by
  classical
  intro s chains hsurvives
  have hsane : Sane cfg s := sane_run hids disk events
  have hlink := lifeLink_conserved (jsonCodec c) hids disk events hkeeps hij
  rw [lifeLink_eq c hsha hsane] at hlink
  have hcopies : s.copies i j = [] := copies_run disk events hj
  have hall : chains.flatten.filter (fun b => Survives c b) = chains.flatten :=
    List.filter_eq_self.2 (by simpa using hsurvives)
  rw [hall, hcopies, List.nil_append] at hlink
  have hbegins : replica c cfg s.now i j <+: chains.flatten := ⟨_, hlink.queue trivial trivial⟩
  exact ⟨hbegins, linked_iff (linked_chainsOver c hsane i) hbegins⟩

end Results

def sampleLives : List (Event Bool FiniteF64) :=
  sampleEvents.map .run ++ .restart false (fun _ => none) :: sampleEvents.map .run

theorem keeps_sampleLives : ∀ e ∈ sampleLives, Keeps Link.reliable e := by
  simp [sampleLives, sampleEvents, sampleEpoch, Keeps, Cluster.Keeps]

theorem restarted_replica_sample :
    letI := sampleDigest
    let c := F64Codec.exact
    let s := Run.exec (step sampleConfigs) (State.initial (fun _ _ => none) : State Bool (jsonCodec c))
      sampleLives
    replica c sampleConfigs s.now false true <+: (chainsOver c sampleConfigs s false).flatten :=
  letI := sampleDigest
  (restarted_replica F64Codec.exact sampleConfigs_injective sampleDigest_injective _ sampleLives
    keeps_sampleLives (by decide : false ≠ true)
    (by simp [sampleLives, sampleEvents, sampleEpoch])
    (fun b _ => survives_exact b)).1

end Slakshna.Restart

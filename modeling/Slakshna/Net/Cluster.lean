import Mathlib.Logic.Function.Basic
import Slakshna.Lib.Link
import Slakshna.Net.Wire
import Slakshna.Node.Blocks

/-! A cluster of nodes that all run `main`. What a loop has appended it hands to its command channel,
block by block; the swarm publishes from there; gossip brings a message to each other node once, late,
in any order, or not at all. -/
namespace Slakshna.Cluster
open LatticeBlock Chains Contribution
variable {N F : Type}

structure Codec (F : Type) where
  Message : Type
  toVec : LatticeBlock F → Message
  fromSlice : Message → Option (LatticeBlock F)
  author : ∀ b b', fromSlice (toVec b) = some b' → b'.nodeId = b.nodeId
  proposal : ∀ b, IsProposal b → fromSlice (toVec b) = some b

structure Node (F : Type) where
  epoch : Epoch.State F
  toBroadcast : List (LatticeBlock F)
  commands : List (LatticeBlock F)

/-- `flight i j` holds what node `i` published and node `j` has not got, the oldest first. `lost` is
kept for the proofs. -/
structure State (N : Type) {F : Type} (codec : Codec F) where
  node : N → Node F
  flight : N → N → List codec.Message
  lost : N → N → List codec.Message

inductive Event (N F : Type) where
  | loop (i : N) (e : Epoch.Event F)
  | broadcast (i : N)
  | publish (i : N) (reached : N → Bool)
  | deliver (i j : N) (k : ℕ)
  | lose (i j : N) (k : ℕ)

def channelSize : ℕ := 100

def appends (phase : Epoch.Phase F) : Epoch.Event F → List (LatticeBlock F)
  | .append => phase.pending
  | _ => []

section Step
variable [DecidableEq N] [LeBytes F] [Sha256] [Zero F] {codec : Codec F}

omit [DecidableEq N] [LeBytes F] [Sha256] [Zero F] in
def State.initial (disk : N → Disk) : State N codec where
  node := fun i => ⟨Epoch.State.initial (disk i), [], []⟩
  flight := fun _ _ => []
  lost := fun _ _ => []

omit [LeBytes F] [Sha256] [Zero F] in
def setNode (s : State N codec) (i : N) (n : Node F) : State N codec :=
  { s with node := Function.update s.node i n }

def setLink (links : N → N → List codec.Message) (i j : N) (l : List codec.Message) :
    N → N → List codec.Message :=
  Function.update links i (Function.update (links i) j l)

def receiveMessage (cfg : Epoch.Config) (s : Epoch.State F) (m : codec.Message) : Epoch.State F :=
  match codec.fromSlice m with
  | some block => Epoch.step cfg s (.deliver block)
  | none => s

/-- The loop goes on once everything it appended is broadcast. Deliveries come from the links only. -/
def step (cfg : N → Epoch.Config) (s : State N codec) : Event N F → State N codec
  | .loop _ (.deliver _) => s
  | .loop i e =>
    let n := s.node i
    match n.toBroadcast with
    | [] =>
      setNode s i { n with
        epoch := Epoch.step (cfg i) n.epoch e
        toBroadcast := appends n.epoch.phase e }
    | _ :: _ => s
  | .broadcast i =>
    let n := s.node i
    match n.toBroadcast with
    | [] => s
    | b :: rest =>
      if n.commands.length < channelSize then
        setNode s i { n with toBroadcast := rest, commands := n.commands ++ [b] }
      else s
  | .publish i reached =>
    let n := s.node i
    match n.commands with
    | [] => s
    | b :: rest =>
      let m := codec.toVec b
      { node := Function.update s.node i { n with commands := rest }
        flight := fun a j => if a = i ∧ j ≠ i ∧ reached j then s.flight a j ++ [m] else s.flight a j
        lost := fun a j => if a = i ∧ j ≠ i ∧ !reached j then s.lost a j ++ [m] else s.lost a j }
  | .deliver i j k =>
    match (s.flight i j)[k]? with
    | none => s
    | some m =>
      let n := s.node j
      { setNode s j { n with epoch := receiveMessage (cfg j) n.epoch m } with
        flight := setLink s.flight i j ((s.flight i j).eraseIdx k) }
  | .lose i j k =>
    match (s.flight i j)[k]? with
    | none => s
    | some m =>
      { s with
        flight := setLink s.flight i j ((s.flight i j).eraseIdx k)
        lost := setLink s.lost i j (s.lost i j ++ [m]) }

inductive Moves (cfg : N → Epoch.Config) : State N codec → Event N F → State N codec → Prop where
  | idle (s : State N codec) (e : Event N F) : Moves cfg s e s
  | loop (s : State N codec) (i : N) (e : Epoch.Event F) (he : ∀ b, e ≠ .deliver b)
      (h : (s.node i).toBroadcast = []) :
      Moves cfg s (.loop i e) (setNode s i { s.node i with
        epoch := Epoch.step (cfg i) (s.node i).epoch e
        toBroadcast := appends (s.node i).epoch.phase e })
  | broadcast (s : State N codec) (i : N) (b : LatticeBlock F) (rest : List (LatticeBlock F))
      (h : (s.node i).toBroadcast = b :: rest) :
      Moves cfg s (.broadcast i) (setNode s i { s.node i with
        toBroadcast := rest
        commands := (s.node i).commands ++ [b] })
  | publish (s : State N codec) (i : N) (reached : N → Bool) (b : LatticeBlock F)
      (rest : List (LatticeBlock F)) (h : (s.node i).commands = b :: rest) :
      Moves cfg s (.publish i reached) {
        node := Function.update s.node i { s.node i with commands := rest }
        flight := fun a j => if a = i ∧ j ≠ i ∧ reached j then s.flight a j ++ [codec.toVec b]
          else s.flight a j
        lost := fun a j => if a = i ∧ j ≠ i ∧ !reached j then s.lost a j ++ [codec.toVec b]
          else s.lost a j }
  | deliver (s : State N codec) (i j : N) (older newer : List codec.Message) (m : codec.Message)
      (h : s.flight i j = older ++ m :: newer) :
      Moves cfg s (.deliver i j older.length)
        { setNode s j { s.node j with epoch := receiveMessage (cfg j) (s.node j).epoch m } with
          flight := setLink s.flight i j (older ++ newer) }
  | lose (s : State N codec) (i j : N) (older newer : List codec.Message) (m : codec.Message)
      (h : s.flight i j = older ++ m :: newer) :
      Moves cfg s (.lose i j older.length)
        { s with
          flight := setLink s.flight i j (older ++ newer)
          lost := setLink s.lost i j (s.lost i j ++ [m]) }

omit [DecidableEq N] [LeBytes F] [Sha256] [Zero F] in
theorem split_at {l : List codec.Message} {k : ℕ} {m : codec.Message} (h : l[k]? = some m) :
    ∃ older newer, l = older ++ m :: newer ∧ older.length = k ∧ l.eraseIdx k = older ++ newer := by
  obtain ⟨hk, rfl⟩ := List.getElem?_eq_some_iff.1 h
  refine ⟨l.take k, l.drop (k + 1), ?_, by simp; omega, List.eraseIdx_eq_take_drop_succ l k⟩
  rw [← List.drop_eq_getElem_cons hk, List.take_append_drop]

theorem step_moves (cfg : N → Epoch.Config) (s : State N codec) (e : Event N F) :
    Moves cfg s e (step cfg s e) := by
  cases e with
  | loop i e =>
    cases hready : (s.node i).toBroadcast with
    | nil =>
      cases e with
      | deliver b => exact Moves.idle s _
      | _ => simpa [step, hready] using Moves.loop s i _ (by simp) hready
    | cons b rest =>
      cases e <;> simpa [step, hready] using Moves.idle s _
  | broadcast i =>
    cases hready : (s.node i).toBroadcast with
    | nil => simpa [step, hready] using Moves.idle s _
    | cons b rest =>
      by_cases hroom : (s.node i).commands.length < channelSize
      · simpa [step, hready, hroom] using Moves.broadcast s i b rest hready
      · simpa [step, hready, hroom] using Moves.idle s _
  | publish i reached =>
    cases hready : (s.node i).commands with
    | nil => simpa [step, hready] using Moves.idle s _
    | cons b rest => simpa [step, hready] using Moves.publish s i reached b rest hready
  | deliver i j k =>
    cases hk : (s.flight i j)[k]? with
    | none => simpa [step, hk] using Moves.idle s _
    | some m =>
      obtain ⟨older, newer, hsplit, rfl, herase⟩ := split_at hk
      simpa [step, hk, herase] using Moves.deliver s i j older newer m hsplit
  | lose i j k =>
    cases hk : (s.flight i j)[k]? with
    | none => simpa [step, hk] using Moves.idle s _
    | some m =>
      obtain ⟨older, newer, hsplit, rfl, herase⟩ := split_at hk
      simpa [step, hk, herase] using Moves.lose s i j older newer m hsplit

end Step

section Nodes
variable [LeBytes F] [Sha256] [Zero F]

def MadeBy (cfg : Epoch.Config) (b : LatticeBlock F) : Prop :=
  b.nodeId = cfg.nodeId ∧ (HashOk b ∨ IsProposal b)

omit [Zero F] in
theorem isProposal_buildProposal (cfg : Epoch.Config) (epochStart : ℕ) (h : String)
    (out : Option (Epoch.MLEngineOutput F)) :
    IsProposal (Epoch.buildProposal cfg epochStart h out) := by
  cases out <;> rfl

theorem madeBy_built (cfg : Epoch.Config) (epochStart : ℕ) (chains : LatticeChains F)
    (o : IterOrder (String × F)) (h : String) (out : Option (Epoch.MLEngineOutput F)) :
    ∀ b ∈ Epoch.buildProposal cfg epochStart h out :: Epoch.build cfg epochStart chains o
      (Epoch.buildProposal cfg epochStart h out) out, MadeBy cfg b := by
  intro b hb
  cases List.mem_cons.1 hb with
  | inl heq =>
    subst heq
    exact ⟨Epoch.nodeId_buildProposal cfg _ _ _, Or.inr (isProposal_buildProposal cfg _ _ _)⟩
  | inr hmem =>
    cases out with
    | none => simp [Epoch.build] at hmem
    | some out =>
      exact ⟨Epoch.nodeId_buildEvaluations cfg _ _ _ _ b hmem,
        Or.inl (Epoch.hashOk_buildEvaluations cfg _ _ _ _ b hmem)⟩

structure SoundNode (cfg : Epoch.Config) (n : Node F) : Prop where
  own : Epoch.Own cfg n.epoch
  pending : ∀ b ∈ n.epoch.phase.pending, MadeBy cfg b
  queued : ∀ b ∈ n.commands ++ n.toBroadcast, MadeBy cfg b

theorem pending_step {cfg : Epoch.Config} (s : Epoch.State F) (e : Epoch.Event F)
    (h : ∀ b ∈ s.phase.pending, MadeBy cfg b) :
    ∀ b ∈ (Epoch.step cfg s e).phase.pending, MadeBy cfg b := by
  have hmove := Epoch.step_moves cfg s e
  generalize Epoch.step cfg s e = s' at hmove
  cases hmove with
  | deliver block => exact h
  | idle => exact h
  | build o st run myPrevHash hphase => exact madeBy_built cfg _ _ o _ _
  | stage | listPeers | runEngine | readTail | append => simp [Epoch.Phase.pending]

theorem chainOf_loop {cfg : Epoch.Config} (s : Epoch.State F) (e : Epoch.Event F)
    (he : ∀ b, e ≠ .deliver b) (h : ∀ b ∈ s.phase.pending, MadeBy cfg b) (id : String) :
    chainOf (Epoch.step cfg s e).chains id = chainOf s.chains id ++
      (if id = cfg.nodeId then (appends s.phase e).filter (fun b => HashOk b) else []) := by
  cases e with
  | deliver block => exact absurd rfl (he block)
  | append =>
    cases hphase : s.phase with
    | built st run myPrevHash myProposal evaluations =>
      have hpending : ∀ b ∈ myProposal :: evaluations, b.nodeId = cfg.nodeId := by
        intro b hb
        exact (h b (by rw [hphase]; exact hb)).1
      simp only [Epoch.step, hphase, appends, Epoch.Phase.pending, chainOf_receive]
      by_cases hid : id = cfg.nodeId
      · rw [if_pos hid]
        congr 1
        apply List.filter_congr
        intro b hb
        simp [hid, hpending b hb]
      · rw [if_neg hid]
        congr 1
        apply List.filter_eq_nil_iff.2
        intro b hb
        simp only [decide_eq_true_eq, not_and]
        intro _ hauthor
        exact hid (hauthor.symm.trans (hpending b hb))
    | _ => simp [Epoch.step, hphase, appends, Epoch.Phase.pending]
  | stage | listPeers | runEngine | readTail | build =>
    cases hphase : s.phase <;> simp [Epoch.step, hphase, appends]

variable {codec : Codec F}

def stored? (codec : Codec F) (m : codec.Message) : Option (LatticeBlock F) :=
  (codec.fromSlice m).filter (fun b => HashOk b)

omit [Zero F] in
theorem stored_toVec {cfg : Epoch.Config} {b b' : LatticeBlock F} (hb : MadeBy cfg b)
    (h : stored? codec (codec.toVec b) = some b') : HashOk b ∧ b'.nodeId = cfg.nodeId := by
  obtain ⟨hread, hok⟩ := Option.filter_eq_some_iff.1 h
  refine ⟨?_, (codec.author b b' hread).trans hb.1⟩
  cases hb.2 with
  | inl h => exact h
  | inr hproposal =>
    rw [codec.proposal b hproposal] at hread
    rw [← Option.some.inj hread] at hok
    simpa using hok

theorem chainOf_receiveMessage (cfg : Epoch.Config) (s : Epoch.State F) (m : codec.Message)
    (id : String) : chainOf (receiveMessage cfg s m).chains id =
      chainOf s.chains id ++ (stored? codec m).toList.filter (fun b => b.nodeId = id) := by
  unfold receiveMessage stored?
  cases codec.fromSlice m with
  | none => simp
  | some block =>
    simp only [Epoch.step, chainOf_add]
    by_cases hok : HashOk block
    · by_cases hid : block.nodeId = id <;> simp [Option.filter, hok, hid]
    · simp [Option.filter, hok]

end Nodes

section Whole
variable [DecidableEq N] [LeBytes F] [Sha256] [Zero F] {codec : Codec F}

structure Sound (cfg : N → Epoch.Config) (s : State N codec) : Prop where
  node : ∀ i, SoundNode (cfg i) (s.node i)
  flight : ∀ i j, ∀ m ∈ s.flight i j, ∀ b, stored? codec m = some b → b.nodeId = (cfg i).nodeId
  notSelf : ∀ i, s.flight i i = []

omit [DecidableEq N] [Zero F] in
theorem sound_initial (cfg : N → Epoch.Config) (disk : N → Disk) :
    Sound cfg (State.initial disk : State N codec) where
  node := fun i => {
    own := Epoch.own_initial (cfg i) (disk i)
    pending := by simp [State.initial, Epoch.State.initial, Epoch.Phase.pending]
    queued := by simp [State.initial] }
  flight := by simp [State.initial]
  notSelf := fun i => rfl

omit [DecidableEq N] in
theorem soundNode_loop {cfg : Epoch.Config} {n : Node F} (h : SoundNode cfg n) (e : Epoch.Event F)
    (he : ∀ b, e ≠ .deliver b) :
    SoundNode cfg { n with
      epoch := Epoch.step cfg n.epoch e, toBroadcast := appends n.epoch.phase e } where
  own := by
    apply Epoch.own_step n.epoch e h.own
    cases e with
    | deliver block => exact absurd rfl (he block)
    | _ => trivial
  pending := pending_step n.epoch e h.pending
  queued := by
    intro b hb
    cases List.mem_append.1 hb with
    | inl hcommand => exact h.queued b (List.mem_append_left _ hcommand)
    | inr hnew =>
      cases e with
      | append => exact h.pending b hnew
      | _ => simp [appends] at hnew

omit [DecidableEq N] in
theorem soundNode_receive {cfg : Epoch.Config} {n : Node F} (h : SoundNode cfg n)
    {m : codec.Message} (hm : ∀ b, stored? codec m = some b → b.nodeId ≠ cfg.nodeId) :
    SoundNode cfg { n with epoch := receiveMessage cfg n.epoch m } := by
  cases hread : codec.fromSlice m with
  | none => simpa only [receiveMessage, hread] using h
  | some block =>
    simp only [receiveMessage, hread]
    refine ⟨Epoch.own_step n.epoch (.deliver block) h.own ?_,
      pending_step n.epoch (.deliver block) h.pending, h.queued⟩
    intro hok
    exact hm block (Option.filter_eq_some_iff.2 ⟨hread, by simpa using hok⟩)

omit [LeBytes F] [Sha256] [Zero F] in
theorem setLink_apply (links : N → N → List codec.Message) (i j a b : N) (l : List codec.Message) :
    setLink links i j l a b = if a = i ∧ b = j then l else links a b := by
  unfold setLink
  by_cases ha : a = i
  · subst ha
    by_cases hb : b = j
    · subst hb
      simp
    · simp [hb]
  · simp [ha]

omit [Zero F] in
theorem soundNode_update {cfg : N → Epoch.Config} {node : N → Node F} {i : N} {n : Node F}
    (h : ∀ j, SoundNode (cfg j) (node j)) (hn : SoundNode (cfg i) n) :
    ∀ j, SoundNode (cfg j) (Function.update node i n j) :=
  (Function.forall_update_iff node (fun j n => SoundNode (cfg j) n)).2 ⟨hn, fun j _ => h j⟩

omit [Zero F] in
theorem Sound.takeMessage {cfg : N → Epoch.Config} {s : State N codec} (h : Sound cfg s) {i j : N}
    {older newer : List codec.Message} {m : codec.Message}
    (hsplit : s.flight i j = older ++ m :: newer) (hne : i ≠ j) :
    (∀ a b, ∀ m ∈ setLink s.flight i j (older ++ newer) a b, ∀ block,
      stored? codec m = some block → block.nodeId = (cfg a).nodeId) ∧
    ∀ a, setLink s.flight i j (older ++ newer) a a = [] := by
  constructor
  · intro a b m' hm'
    rw [setLink_apply] at hm'
    by_cases hlink : a = i ∧ b = j
    · rw [if_pos hlink] at hm'
      obtain ⟨rfl, rfl⟩ := hlink
      refine h.flight a b m' ?_
      rw [hsplit]
      simp only [List.mem_append, List.mem_cons] at hm' ⊢
      tauto
    · rw [if_neg hlink] at hm'
      exact h.flight a b m' hm'
  · intro a
    rw [setLink_apply, if_neg]
    · exact h.notSelf a
    · rintro ⟨rfl, rfl⟩
      exact hne rfl

omit [DecidableEq N] [Zero F] in
theorem Sound.ne_of_split {cfg : N → Epoch.Config} {s : State N codec} (h : Sound cfg s) {i j : N}
    {older newer : List codec.Message} {m : codec.Message}
    (hsplit : s.flight i j = older ++ m :: newer) : i ≠ j := by
  rintro rfl
  rw [h.notSelf i] at hsplit
  simp at hsplit

omit [DecidableEq N] [Zero F] in
theorem Sound.author {cfg : N → Epoch.Config} {s : State N codec} (h : Sound cfg s) {i j : N}
    {older newer : List codec.Message} {m : codec.Message}
    (hsplit : s.flight i j = older ++ m :: newer) :
    ∀ b, stored? codec m = some b → b.nodeId = (cfg i).nodeId :=
  h.flight i j m (by simp [hsplit])

theorem sound_step {cfg : N → Epoch.Config} (hids : Function.Injective (fun i => (cfg i).nodeId))
    (s : State N codec) (e : Event N F) (h : Sound cfg s) : Sound cfg (step cfg s e) := by
  have hmove := step_moves cfg s e
  generalize step cfg s e = s' at hmove
  cases hmove with
  | idle => exact h
  | loop i e he hready =>
    exact ⟨soundNode_update h.node (soundNode_loop (h.node i) e he), h.flight, h.notSelf⟩
  | broadcast i b rest hready =>
    refine ⟨soundNode_update h.node ?_, h.flight, h.notSelf⟩
    refine ⟨(h.node i).own, (h.node i).pending, fun b' hb' => (h.node i).queued b' ?_⟩
    rw [hready]
    simpa using hb'
  | publish i reached b rest hready =>
    have hb : MadeBy (cfg i) b := (h.node i).queued b (by simp [hready])
    refine ⟨soundNode_update h.node ?_, fun a j m hm => ?_, fun a => ?_⟩
    · refine ⟨(h.node i).own, (h.node i).pending, fun b' hb' => (h.node i).queued b' ?_⟩
      rw [hready]
      exact List.mem_cons_of_mem b hb'
    · dsimp only at hm
      by_cases hlink : a = i ∧ j ≠ i ∧ reached j = true
      · rw [if_pos hlink, List.mem_append, List.mem_singleton] at hm
        cases hm with
        | inl hold => exact h.flight a j m hold
        | inr hnew =>
          subst hnew
          intro block hblock
          rw [hlink.1]
          exact (stored_toVec hb hblock).2
      · rw [if_neg hlink] at hm
        exact h.flight a j m hm
    · dsimp only
      rw [if_neg (fun hlink => hlink.2.1 hlink.1), h.notSelf]
  | deliver i j older newer m hsplit =>
    have hne := h.ne_of_split hsplit
    have hlinks := h.takeMessage hsplit hne
    refine ⟨soundNode_update h.node (soundNode_receive (h.node j) ?_), hlinks.1, hlinks.2⟩
    intro b hb hauthor
    exact hne (hids ((h.author hsplit b hb).symm.trans hauthor))
  | lose i j older newer m hsplit =>
    have hlinks := h.takeMessage hsplit (h.ne_of_split hsplit)
    exact ⟨h.node, hlinks.1, hlinks.2⟩

/-! Each pair of nodes sees a link -/

def unpublished (n : Node F) : List (LatticeBlock F) := n.commands ++ n.toBroadcast

def carried? (codec : Codec F) (b : LatticeBlock F) : Option (LatticeBlock F) :=
  stored? codec (codec.toVec b)

def link (cfg : N → Epoch.Config) (s : State N codec) (i j : N) : Link (LatticeBlock F) where
  sent := (chainOf (s.node i).epoch.chains (cfg i).nodeId).filterMap (carried? codec)
  arrived := chainOf (s.node j).epoch.chains (cfg i).nodeId
  lost := (s.lost i j).filterMap (stored? codec)
  transit := (s.flight i j).filterMap (stored? codec) ++
    (unpublished (s.node i)).filterMap (carried? codec)

def Keeps (p : Link.Promise) : Event N F → Prop
  | .publish _ reached => p.lossless → ∀ j, reached j
  | .deliver _ _ k => p.inOrder → k = 0
  | .lose _ _ _ => ¬p.lossless
  | .loop _ _ | .broadcast _ => True

omit [DecidableEq N] [LeBytes F] [Sha256] [Zero F] in
theorem keeps_noPromise (e : Event N F) : Keeps Link.noPromise e := by
  cases e with
  | publish i reached => exact fun h => h.elim
  | deliver i j k => exact fun h => h.elim
  | lose i j k => exact fun h => h
  | loop | broadcast => trivial

omit [LeBytes F] [Sha256] [Zero F] in
theorem epoch_update (node : N → Node F) (a : N) (n : Node F) (h : n.epoch = (node a).epoch) (i : N) :
    (Function.update node a n i).epoch = (node i).epoch := by
  by_cases hi : i = a
  · subst hi
    rw [Function.update_self, h]
  · rw [Function.update_of_ne hi]

omit [DecidableEq N] [Zero F] in
theorem link_congr {cfg : N → Epoch.Config} {s s' : State N codec} {i j : N}
    (hown : chainOf (s'.node i).epoch.chains (cfg i).nodeId =
      chainOf (s.node i).epoch.chains (cfg i).nodeId)
    (hcopy : chainOf (s'.node j).epoch.chains (cfg i).nodeId =
      chainOf (s.node j).epoch.chains (cfg i).nodeId)
    (hqueue : unpublished (s'.node i) = unpublished (s.node i))
    (hflight : s'.flight i j = s.flight i j) (hlost : s'.lost i j = s.lost i j) :
    link cfg s' i j = link cfg s i j := by
  simp only [link, hown, hcopy, hqueue, hflight, hlost]

omit [DecidableEq N] [Zero F] in
theorem carried_filter {cfg : Epoch.Config} {bs : List (LatticeBlock F)}
    (h : ∀ b ∈ bs, MadeBy cfg b) :
    (bs.filter (fun b => HashOk b)).filterMap (carried? codec) = bs.filterMap (carried? codec) := by
  rw [List.filterMap_filter]
  apply List.filterMap_congr
  intro b hb
  by_cases hok : HashOk b
  · simp [hok]
  · cases hcarried : carried? codec b with
    | none => simp
    | some b' => exact absurd (stored_toVec (h b hb) hcarried).1 hok

omit [DecidableEq N] in
theorem chainOf_receive_other {cfg : Epoch.Config} {n : Epoch.State F} {m : codec.Message}
    {id author : String} (hm : ∀ b, stored? codec m = some b → b.nodeId = author)
    (hne : author ≠ id) :
    chainOf (receiveMessage cfg n m).chains id = chainOf n.chains id := by
  rw [chainOf_receiveMessage]
  cases hstored : stored? codec m with
  | none => simp
  | some b => simp [hm b hstored, hne]

variable {cfg : N → Epoch.Config} {s : State N codec} {i j : N} {p : Link.Promise}

theorem link_loop (hids : Function.Injective (fun i => (cfg i).nodeId)) (h : Sound cfg s)
    (hij : i ≠ j) (a : N) (e : Epoch.Event F) (he : ∀ b, e ≠ .deliver b)
    (hready : (s.node a).toBroadcast = []) :
    Link.Moves p (link cfg s i j) (link cfg (setNode s a { s.node a with
      epoch := Epoch.step (cfg a) (s.node a).epoch e
      toBroadcast := appends (s.node a).epoch.phase e }) i j) := by
  have hchain := chainOf_loop (s.node a).epoch e he (h.node a).pending (cfg i).nodeId
  by_cases ha : a = i
  · subst ha
    rw [if_pos rfl] at hchain
    have happends : ∀ b ∈ appends (s.node a).epoch.phase e, MadeBy (cfg a) b := by
      cases e with
      | append => exact (h.node a).pending
      | _ => simp [appends]
    have hmove := Link.Moves.send (p := p) (link cfg s a j)
      ((appends (s.node a).epoch.phase e).filterMap (carried? codec))
    convert hmove using 1
    simp only [link, unpublished, setNode, Function.update_self, Function.update_of_ne (Ne.symm hij), hchain,
      List.filterMap_append, carried_filter happends, hready, List.append_nil, List.append_assoc]
  · have hne : (cfg i).nodeId ≠ (cfg a).nodeId := fun heq => ha (hids heq).symm
    rw [if_neg hne, List.append_nil] at hchain
    have hsame : link cfg (setNode s a { s.node a with
        epoch := Epoch.step (cfg a) (s.node a).epoch e
        toBroadcast := appends (s.node a).epoch.phase e }) i j = link cfg s i j := by
      have hi : i ≠ a := fun heq => ha heq.symm
      apply link_congr
      · simp [setNode, Function.update_of_ne hi]
      · by_cases hj : j = a
        · subst hj
          simpa [setNode] using hchain
        · simp [setNode, Function.update_of_ne hj]
      · simp [setNode, Function.update_of_ne hi]
      · rfl
      · rfl
    rw [hsame]
    exact Link.Moves.idle _

omit [Zero F] in
theorem link_broadcast (a : N) {b : LatticeBlock F} {rest : List (LatticeBlock F)}
    (hready : (s.node a).toBroadcast = b :: rest) :
    link cfg (setNode s a { s.node a with
      toBroadcast := rest
      commands := (s.node a).commands ++ [b] }) i j = link cfg s i j := by
  have hepoch := epoch_update s.node a { s.node a with
    toBroadcast := rest
    commands := (s.node a).commands ++ [b] } rfl
  apply link_congr
  · simp only [setNode, hepoch]
  · simp only [setNode, hepoch]
  · by_cases ha : i = a
    · subst ha
      simp [setNode, unpublished, hready]
    · simp [setNode, Function.update_of_ne ha]
  · rfl
  · rfl

omit [Zero F] in
theorem link_publish (hij : i ≠ j) (a : N) (reached : N → Bool) {b : LatticeBlock F}
    {rest : List (LatticeBlock F)} (hready : (s.node a).commands = b :: rest)
    (hkeeps : p.lossless → ∀ j, reached j) :
    Link.Moves p (link cfg s i j) (link cfg {
      node := Function.update s.node a { s.node a with commands := rest }
      flight := fun a' j => if a' = a ∧ j ≠ a ∧ reached j then s.flight a' j ++ [codec.toVec b]
        else s.flight a' j
      lost := fun a' j => if a' = a ∧ j ≠ a ∧ !reached j then s.lost a' j ++ [codec.toVec b]
        else s.lost a' j } i j) := by
  have hepoch := epoch_update s.node a { s.node a with commands := rest } rfl
  by_cases ha : i = a
  · subst ha
    have hi := Function.update_self i { s.node i with commands := rest } s.node
    have hji : j ≠ i := Ne.symm hij
    by_cases hreached : reached j = true
    · convert Link.Moves.idle (p := p) (link cfg s i j) using 1
      simp only [link, unpublished, hepoch, hi, hready]
      cases hcarried : stored? codec (codec.toVec b) with
      | none => simp [hji, hreached, carried?, hcarried]
      | some x => simp [hji, hreached, carried?, hcarried]
    · have hlossy : ¬p.lossless := fun hp => hreached (hkeeps hp j)
      cases hcarried : stored? codec (codec.toVec b) with
      | none =>
        convert Link.Moves.idle (p := p) (link cfg s i j) using 1
        simp only [link, unpublished, hepoch, hi, hready]
        simp [hji, hreached, carried?, hcarried]
      | some x =>
        have hmove := Link.Moves.lose (link cfg s i j) ((s.flight i j).filterMap (stored? codec))
          ((rest ++ (s.node i).toBroadcast).filterMap (carried? codec)) x
          (by simp [link, unpublished, hready, carried?, hcarried]) hlossy
        convert hmove using 1
        simp only [link, unpublished, hepoch, hi]
        simp [hji, hreached, hcarried]
  · rw [link_congr]
    · exact Link.Moves.idle _
    · simp only [hepoch]
    · simp only [hepoch]
    · simp [Function.update_of_ne ha]
    · simp [ha]
    · simp [ha]

theorem link_deliver (hids : Function.Injective (fun i => (cfg i).nodeId)) (h : Sound cfg s)
    (hij : i ≠ j) (a c : N) {older newer : List codec.Message} {m : codec.Message}
    (hsplit : s.flight a c = older ++ m :: newer) (hkeeps : p.inOrder → older.length = 0) :
    Link.Moves p (link cfg s i j) (link cfg
      { setNode s c { s.node c with epoch := receiveMessage (cfg c) (s.node c).epoch m } with
        flight := setLink s.flight a c (older ++ newer) } i j) := by
  have hne : a ≠ c := h.ne_of_split hsplit
  have hauthor := h.author hsplit
  by_cases hlink : i = a ∧ j = c
  · obtain ⟨rfl, rfl⟩ := hlink
    have hcopy := chainOf_receiveMessage (cfg j) (s.node j).epoch m (cfg i).nodeId
    have hi := Function.update_of_ne hij
      { s.node j with epoch := receiveMessage (cfg j) (s.node j).epoch m } s.node
    cases hstored : stored? codec m with
    | none =>
      rw [hstored] at hcopy
      convert Link.Moves.idle (p := p) (link cfg s i j) using 1
      simp only [link, unpublished, setNode, hi, Function.update_self, setLink_apply, hcopy, hsplit]
      simp [hstored]
    | some x =>
      rw [hstored] at hcopy
      have hmove := Link.Moves.arrive (p := p) (link cfg s i j) (older.filterMap (stored? codec))
        (newer.filterMap (stored? codec) ++
          (unpublished (s.node i)).filterMap (carried? codec)) x
        (by simp [link, unpublished, hsplit, hstored])
        (fun hp => by rw [List.length_eq_zero_iff.1 (hkeeps hp), List.filterMap_nil])
      convert hmove using 1
      simp only [link, unpublished, setNode, hi, Function.update_self, setLink_apply, hcopy]
      simp [hauthor x hstored]
  · rw [link_congr]
    · exact Link.Moves.idle _
    · by_cases hc : i = c
      · subst hc
        simpa [setNode] using (chainOf_receive_other hauthor (fun heq => hne (hids heq))).symm
      · simp [setNode, Function.update_of_ne hc]
    · by_cases hc : j = c
      · subst hc
        have ha : i ≠ a := fun heq => hlink ⟨heq, rfl⟩
        simpa [setNode] using (chainOf_receive_other hauthor (fun heq => ha (hids heq).symm)).symm
      · simp [setNode, Function.update_of_ne hc]
    · by_cases hc : i = c
      · subst hc
        simp [setNode, unpublished]
      · simp [setNode, Function.update_of_ne hc]
    · simp only [setLink_apply, if_neg hlink]
    · rfl

omit [Zero F] in
theorem link_lose (a c : N) {older newer : List codec.Message} {m : codec.Message}
    (hsplit : s.flight a c = older ++ m :: newer) (hkeeps : ¬p.lossless) :
    Link.Moves p (link cfg s i j) (link cfg
      { s with
        flight := setLink s.flight a c (older ++ newer)
        lost := setLink s.lost a c (s.lost a c ++ [m]) } i j) := by
  by_cases hlink : i = a ∧ j = c
  · obtain ⟨rfl, rfl⟩ := hlink
    cases hstored : stored? codec m with
    | none =>
      convert Link.Moves.idle (p := p) (link cfg s i j) using 1
      simp only [link, unpublished, setLink_apply, hsplit]
      simp [hstored]
    | some x =>
      have hmove := Link.Moves.lose (link cfg s i j) (older.filterMap (stored? codec))
        (newer.filterMap (stored? codec) ++
          (unpublished (s.node i)).filterMap (carried? codec)) x
        (by simp [link, unpublished, hsplit, hstored]) hkeeps
      convert hmove using 1
      simp only [link, unpublished, setLink_apply]
      simp [hstored]
  · rw [link_congr]
    · exact Link.Moves.idle _
    · rfl
    · rfl
    · rfl
    · simp only [setLink_apply, if_neg hlink]
    · simp only [setLink_apply, if_neg hlink]

theorem link_moves (hids : Function.Injective (fun i => (cfg i).nodeId)) (h : Sound cfg s)
    (hij : i ≠ j) (e : Event N F) (hkeeps : Keeps p e) :
    Link.Moves p (link cfg s i j) (link cfg (step cfg s e) i j) := by
  have hmove := step_moves cfg s e
  generalize step cfg s e = s' at hmove
  cases hmove with
  | idle => exact Link.Moves.idle _
  | loop a e he hready => exact link_loop hids h hij a e he hready
  | broadcast a b rest hready =>
    rw [link_broadcast a hready]
    exact Link.Moves.idle _
  | publish a reached b rest hready => exact link_publish hij a reached hready hkeeps
  | deliver a c older newer m hsplit => exact link_deliver hids h hij a c hsplit hkeeps
  | lose a c older newer m hsplit => exact link_lose a c hsplit hkeeps

theorem sound_run (hids : Function.Injective (fun i => (cfg i).nodeId)) (disk : N → Disk)
    (events : List (Event N F)) :
    Sound cfg (Run.exec (step cfg) (State.initial disk : State N codec) events) :=
  Run.invariant_of_step (sound_step hids) (sound_initial cfg disk) events

theorem link_conserved (codec : Codec F) (hids : Function.Injective (fun i => (cfg i).nodeId))
    (disk : N → Disk) (events : List (Event N F)) (hkeeps : ∀ e ∈ events, Keeps p e) (hij : i ≠ j) :
    Link.Conserved p
      (link cfg (Run.exec (step cfg) (State.initial disk : State N codec) events) i j) := by
  induction events using List.reverseRecOn with
  | nil => exact Link.conserved_nil p
  | append_singleton events e ih =>
    rw [Run.exec_append]
    have hbefore := ih (fun e he => hkeeps e (List.mem_append_left _ he))
    have he := hkeeps e (by simp)
    exact Link.conserved_moves hbefore (link_moves hids (sound_run hids disk events) hij e he)

end Whole
end Slakshna.Cluster

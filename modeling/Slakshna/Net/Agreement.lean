import Mathlib.Algebra.Order.BigOperators.Group.Finset
import Mathlib.Data.Fintype.Prod
import Slakshna.Net.Replication

/-! Left to itself the network of a cluster hands everything over, and then all nodes agree. -/
namespace Slakshna.Cluster
open LatticeBlock Chains Committee
variable {N T : Type} (c : F64Codec T) [DecidableEq N] [Sha256] {cfg : N → Epoch.Config}

structure Settled (s : State N (jsonCodec c)) : Prop where
  flight : ∀ i j, s.flight i j = []
  lost : ∀ i j, s.lost i j = []
  published : ∀ i, unpublished (s.node i) = []

theorem settled_perm (hids : Function.Injective (fun i => (cfg i).nodeId))
    (hsha : Function.Injective Sha256.digest) (disk : N → Disk)
    (events : List (Event N FiniteF64)) :
    let s := Run.exec (step cfg) (State.initial disk : State N (jsonCodec c)) events
    Settled c s → (∀ i, ∀ b ∈ ownChain c cfg s i, Survives c b) →
    ∀ i j, (ownChain c cfg s i).Perm (replica c cfg s i j) := by
  classical
  intro s hsettled hsurvives i j
  by_cases hij : i = j
  · subst hij
    exact List.Perm.refl _
  · have hlink := link_conserved (jsonCodec c) hids disk events
      (fun e _ => keeps_noPromise e) hij
    rw [link_run c hids hsha] at hlink
    have hall : (ownChain c cfg s i).filter (fun b => Survives c b) = ownChain c cfg s i :=
      List.filter_eq_self.2 (by simpa using hsurvives i)
    have hsent := hlink.settled (by simp [underway, hsettled.lost i j, s])
      (by simp [underway, hsettled.flight i j, hsettled.published i, s])
    rwa [hall] at hsent

theorem settled_committee (hids : Function.Injective (fun i => (cfg i).nodeId))
    (hsha : Function.Injective Sha256.digest) (disk : N → Disk)
    (events : List (Event N FiniteF64)) :
    let s := Run.exec (step cfg) (State.initial disk : State N (jsonCodec c)) events
    Settled c s → (∀ i, ∀ b ∈ ownChain c cfg s i, Survives c b) →
    ∀ i j (o o' : CallOrder FiniteF64) (k : ℕ),
      getElectedCommittee o (s.node i).epoch.chains k =
        getElectedCommittee o' (s.node j).epoch.chains k := by
  intro s hsettled hsurvives i j o o' k
  have hclosed : ∀ i, Closed cfg (s.node i) := closed_run hids disk events
  have hperm := settled_perm c hids hsha disk events hsettled hsurvives
  have hstores : (s.node i).epoch.chains.allValues.Perm (s.node j).epoch.chains.allValues := by
    refine (hclosed i).reached.perm (hclosed j).reached (fun id => ?_)
    by_cases hid : ∃ a, (cfg a).nodeId = id
    · obtain ⟨a, rfl⟩ := hid
      exact (hperm a i).symm.trans (hperm a j)
    · have hnone : ∀ a, (cfg a).nodeId ≠ id := fun a ha => hid ⟨a, ha⟩
      rw [(hclosed i).authors id hnone, (hclosed j).authors id hnone]
  rw [getElectedCommittee_eq, getElectedCommittee_eq, rankedNodes_perm (hstores.filter _)]

def NetworkOnly {F : Type} : Event N F → Prop
  | .broadcast _ => True
  | .publish _ reached => ∀ j, reached j
  | .deliver _ _ k => k = 0
  | .loop _ _ | .lose _ _ _ => False

section Drain
variable {F : Type} [LeBytes F] [Zero F] {codec : Codec F}

theorem networkOnly_step (hids : Function.Injective (fun i => (cfg i).nodeId)) {s : State N codec}
    (hsound : Sound cfg s) {e : Event N F} (he : NetworkOnly e) :
    (step cfg s e).lost = s.lost ∧
    ∀ i, chainOf ((step cfg s e).node i).epoch.chains (cfg i).nodeId =
      chainOf (s.node i).epoch.chains (cfg i).nodeId := by
  have hmove := step_moves cfg s e
  generalize step cfg s e = s' at hmove
  cases hmove with
  | idle => exact ⟨rfl, fun i => rfl⟩
  | loop | lose => exact he.elim
  | broadcast a b rest hready =>
    have hepoch := epoch_update s.node a { s.node a with
      toBroadcast := rest
      commands := (s.node a).commands ++ [b] } rfl
    exact ⟨rfl, fun i => by simp only [setNode, hepoch]⟩
  | publish a reached b rest hready =>
    have hepoch := epoch_update s.node a { s.node a with commands := rest } rfl
    refine ⟨?_, fun i => by simp only [hepoch]⟩
    funext i j
    have hreached : reached j = true := he j
    simp [hreached]
  | deliver a c older newer m hsplit =>
    refine ⟨rfl, fun i => ?_⟩
    by_cases hi : i = c
    · subst hi
      have hne := hsound.ne_of_split hsplit
      simpa [setNode] using chainOf_receive_other (hsound.author hsplit) (fun heq => hne (hids heq))
    · simp [setNode, Function.update_of_ne hi]

structure Follows (cfg : N → Epoch.Config) (s s' : State N codec) : Prop where
  sound : Sound cfg s'
  lost : s'.lost = s.lost
  own : ∀ i, chainOf (s'.node i).epoch.chains (cfg i).nodeId =
    chainOf (s.node i).epoch.chains (cfg i).nodeId

theorem follows_step (hids : Function.Injective (fun i => (cfg i).nodeId)) {s s' : State N codec}
    (h : Follows cfg s s') {e : Event N F} (he : NetworkOnly e) : Follows cfg s (step cfg s' e) := by
  obtain ⟨hlost, hown⟩ := networkOnly_step hids h.sound he
  exact ⟨sound_step hids s' e h.sound, hlost.trans h.lost, fun i => (hown i).trans (h.own i)⟩

variable [Fintype N]

def queueLoad (n : Node F) : ℕ := 2 * n.toBroadcast.length + n.commands.length

omit [Sha256] [LeBytes F] [Zero F] in
theorem sum_update_lt {node : N → Node F} {i : N} {n : Node F}
    (h : queueLoad n < queueLoad (node i)) :
    ∑ j, queueLoad (Function.update node i n j) < ∑ j, queueLoad (node j) := by
  apply Finset.sum_lt_sum
  · intro j _
    by_cases hj : j = i
    · subst hj
      rw [Function.update_self]
      exact h.le
    · rw [Function.update_of_ne hj]
  · exact ⟨i, Finset.mem_univ i, by rwa [Function.update_self]⟩

theorem publishes (hids : Function.Injective (fun i => (cfg i).nodeId)) {s s' : State N codec}
    (h : Follows cfg s s') {i : N} (hi : unpublished (s'.node i) ≠ []) :
    ∃ e : Event N F, NetworkOnly e ∧ Follows cfg s (step cfg s' e) ∧
      ∑ j, queueLoad ((step cfg s' e).node j) < ∑ j, queueLoad (s'.node j) := by
  cases hcommands : (s'.node i).commands with
  | cons b rest =>
    have he : NetworkOnly (.publish i (fun _ => true) : Event N F) := fun _ => rfl
    refine ⟨_, he, follows_step hids h he, ?_⟩
    simp only [step, hcommands]
    exact sum_update_lt (by simp [queueLoad, hcommands])
  | nil =>
    cases hqueue : (s'.node i).toBroadcast with
    | nil => exact absurd (by simp [unpublished, hcommands, hqueue]) hi
    | cons b rest =>
      have he : NetworkOnly (.broadcast i : Event N F) := trivial
      refine ⟨_, he, follows_step hids h he, ?_⟩
      simp only [step, hqueue, hcommands]
      rw [if_pos (by simp [channelSize])]
      exact sum_update_lt (by simp [queueLoad, hcommands, hqueue]; omega)

theorem handsOver (hids : Function.Injective (fun i => (cfg i).nodeId)) {s s' : State N codec}
    (h : Follows cfg s s') (hqueues : ∀ i, unpublished (s'.node i) = []) {i j : N}
    (hij : s'.flight i j ≠ []) :
    ∃ e : Event N F, NetworkOnly e ∧
      (Follows cfg s (step cfg s' e) ∧ ∀ i, unpublished ((step cfg s' e).node i) = []) ∧
      ∑ p : N × N, ((step cfg s' e).flight p.1 p.2).length <
        ∑ p : N × N, (s'.flight p.1 p.2).length := by
  obtain ⟨m, rest, hcons⟩ := List.exists_cons_of_ne_nil hij
  have he : NetworkOnly (.deliver i j 0 : Event N F) := rfl
  refine ⟨_, he, ⟨follows_step hids h he, ?_⟩, ?_⟩
  · simp only [step, hcons, List.getElem?_cons_zero]
    intro a
    by_cases ha : a = j
    · subst ha
      simpa [setNode, unpublished] using hqueues a
    · simpa [setNode, Function.update_of_ne ha] using hqueues a
  · simp only [step, hcons, List.getElem?_cons_zero, List.eraseIdx_cons_zero]
    apply Finset.sum_lt_sum
    · intro p _
      rw [setLink_apply]
      by_cases hp : p.1 = i ∧ p.2 = j
      · rw [if_pos hp, hp.1, hp.2, hcons]
        simp
      · rw [if_neg hp]
    · exact ⟨(i, j), Finset.mem_univ _, by simp [setLink_apply, hcons]⟩

theorem drains (hids : Function.Injective (fun i => (cfg i).nodeId)) {s : State N codec}
    (h : Sound cfg s) :
    ∃ events : List (Event N F), (∀ e ∈ events, NetworkOnly e) ∧
      Follows cfg s (Run.exec (step cfg) s events) ∧
      (∀ i, unpublished ((Run.exec (step cfg) s events).node i) = []) ∧
      ∀ i j, (Run.exec (step cfg) s events).flight i j = [] := by
  have hstart : Follows cfg s s := ⟨h, rfl, fun i => rfl⟩
  obtain ⟨first, hfirst, hfollows, hqueues⟩ := Run.reaches_of_measure
    (fun s' : State N codec => ∀ i, unpublished (s'.node i) = [])
    (fun s' => ∑ j, queueLoad (s'.node j))
    (fun s' hs' hdone => by
      obtain ⟨i, hi⟩ := not_forall.1 hdone
      exact publishes hids hs' hi) hstart
  obtain ⟨second, hsecond, ⟨hfollows', hqueues'⟩, hflight⟩ := Run.reaches_of_measure
    (fun s' : State N codec => ∀ i j, s'.flight i j = [])
    (fun s' => ∑ p : N × N, (s'.flight p.1 p.2).length)
    (fun s' (hs' : Follows cfg s s' ∧ ∀ i, unpublished (s'.node i) = []) hdone => by
      obtain ⟨i, hi⟩ := not_forall.1 hdone
      obtain ⟨j, hj⟩ := not_forall.1 hi
      exact handsOver hids hs'.1 hs'.2 hj) (And.intro hfollows hqueues)
  refine ⟨first ++ second, ?_, ?_⟩
  · intro e he
    exact (List.mem_append.1 he).elim (hfirst e) (hsecond e)
  · rw [Run.exec_append]
    exact ⟨hfollows', hqueues', hflight⟩

end Drain

/-- Whatever happened so far, if nothing was lost and all scores survive, the network alone leads to a
state in which no node wrote anything more and all nodes elect the same committee. -/
theorem reaches_agreement [Fintype N] (hids : Function.Injective (fun i => (cfg i).nodeId))
    (hsha : Function.Injective Sha256.digest) (disk : N → Disk)
    (events : List (Event N FiniteF64)) :
    let s := Run.exec (step cfg) (State.initial disk : State N (jsonCodec c)) events
    (∀ i j, s.lost i j = []) → (∀ i, ∀ b ∈ ownChain c cfg s i, Survives c b) →
    ∃ rest : List (Event N FiniteF64), (∀ e ∈ rest, NetworkOnly e) ∧
      let s' := Run.exec (step cfg) s rest
      (∀ i, ownChain c cfg s' i = ownChain c cfg s i) ∧
      (∀ i j, (ownChain c cfg s i).Perm (replica c cfg s' i j)) ∧
      ∀ i j (o o' : CallOrder FiniteF64) (k : ℕ),
        getElectedCommittee o (s'.node i).epoch.chains k =
          getElectedCommittee o' (s'.node j).epoch.chains k := by
  intro s hlost hsurvives
  obtain ⟨rest, hrest, hfollows, hqueues, hflight⟩ := drains hids (sound_run hids disk events)
  have hrun : Run.exec (step cfg) (State.initial disk) (events ++ rest) =
      Run.exec (step cfg) s rest := Run.exec_append _ _ _ _
  have hown : ∀ i, ownChain c cfg (Run.exec (step cfg) s rest) i = ownChain c cfg s i := hfollows.own
  have hsettled : Settled c (Run.exec (step cfg) s rest) :=
    ⟨hflight, fun i j => by rw [hfollows.lost]; exact hlost i j, hqueues⟩
  have hscores : ∀ i, ∀ b ∈ ownChain c cfg (Run.exec (step cfg) s rest) i, Survives c b := by
    intro i b hb
    exact hsurvives i b (hown i ▸ hb)
  rw [← hrun] at hsettled hscores hown
  refine ⟨rest, hrest, ?_⟩
  rw [← hrun]
  refine ⟨hown, fun i j => ?_, ?_⟩
  · rw [← hown i]
    exact settled_perm c hids hsha disk (events ++ rest) hsettled hscores i j
  · exact settled_committee c hids hsha disk (events ++ rest) hsettled hscores

omit [Sha256] in
theorem reaches_agreement_sample :
    letI := sampleDigest
    let c := F64Codec.exact
    let s := Run.exec (step sampleConfigs) (State.initial (fun _ _ => none) : State Bool (jsonCodec c))
      (sampleEpoch false ++ sampleEpoch true)
    ∃ rest : List (Event Bool FiniteF64), (∀ e ∈ rest, NetworkOnly e) ∧
      let s' := Run.exec (step sampleConfigs) s rest
      (∀ i, ownChain c sampleConfigs s' i = ownChain c sampleConfigs s i) ∧
      (∀ i j, (ownChain c sampleConfigs s i).Perm (replica c sampleConfigs s' i j)) ∧
      ∀ i j (o o' : CallOrder FiniteF64) (k : ℕ),
        getElectedCommittee o (s'.node i).epoch.chains k =
          getElectedCommittee o' (s'.node j).epoch.chains k :=
  letI := sampleDigest
  reaches_agreement F64Codec.exact sampleConfigs_injective sampleDigest_injective _
    (sampleEpoch false ++ sampleEpoch true) (fun _ _ => rfl) (fun _ b _ => survives_exact b)

end Slakshna.Cluster

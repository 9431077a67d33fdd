import Mathlib.Data.Finset.Basic
import Slakshna.Lib.Run

/-! The peers a node counts as active, over the events of its swarm. A peer can have several
connections, and discovery comes and goes beside them; the node keeps one flat entry for all of it. -/
namespace Slakshna.Peers

class PeerId (P : Type) where
  toText : P → String
  toText_injective : Function.Injective toText

instance : PeerId String where
  toText := id
  toText_injective := Function.injective_id

inductive SwarmEvent (P : Type) where
  | connectionEstablished (peerId : P)
  | connectionClosed (peerId : P)
  | mdnsDiscovered (list : List P)
  | mdnsExpired (list : List P)

/-- `connections` has a peer once for each connection to it that is open: the node does not keep it. -/
structure MeshState (P : Type) where
  activePeers : List String
  explicitPeers : Finset P
  connections : List P

def MeshState.start {P : Type} : MeshState P := ⟨[], ∅, []⟩

variable {P : Type} [DecidableEq P] [PeerId P]

def addPeer (s : MeshState P) (peerId : P) : MeshState P :=
  { s with
    explicitPeers := insert peerId s.explicitPeers
    activePeers := if PeerId.toText peerId ∈ s.activePeers then s.activePeers
      else s.activePeers ++ [PeerId.toText peerId] }

def removePeer (s : MeshState P) (peerId : P) : MeshState P :=
  { s with
    explicitPeers := s.explicitPeers.erase peerId
    activePeers := s.activePeers.filter (fun p => p ≠ PeerId.toText peerId) }

def step (s : MeshState P) : SwarmEvent P → MeshState P
  | .connectionEstablished peerId =>
    { addPeer s peerId with connections := peerId :: s.connections }
  | .connectionClosed peerId =>
    { removePeer s peerId with connections := s.connections.erase peerId }
  | .mdnsDiscovered list => list.foldl addPeer s
  | .mdnsExpired list => list.foldl removePeer s

@[simp] theorem addPeer_connections (s : MeshState P) (p : P) :
    (addPeer s p).connections = s.connections := rfl

@[simp] theorem removePeer_connections (s : MeshState P) (p : P) :
    (removePeer s p).connections = s.connections := rfl

/-- A peer is known where it is both active and an explicit peer of gossipsub. -/
def Known (s : MeshState P) (p : P) : Prop :=
  PeerId.toText p ∈ s.activePeers ∧ p ∈ s.explicitPeers

theorem known_addPeer {s : MeshState P} {p q : P} : Known (addPeer s q) p ↔ p = q ∨ Known s p := by
  by_cases hpq : p = q
  · subst hpq
    by_cases hmem : PeerId.toText p ∈ s.activePeers
    · simp [Known, addPeer, hmem]
    · simp [Known, addPeer, hmem]
  · have htext : PeerId.toText p ≠ PeerId.toText q := fun h => hpq (PeerId.toText_injective h)
    by_cases hmem : PeerId.toText q ∈ s.activePeers
    · simp [Known, addPeer, hmem, hpq]
    · simp [Known, addPeer, hmem, hpq, htext]

theorem known_removePeer {s : MeshState P} {p q : P} :
    Known (removePeer s q) p ↔ p ≠ q ∧ Known s p := by
  by_cases hpq : p = q
  · subst hpq
    simp [Known, removePeer]
  · have htext : PeerId.toText p ≠ PeerId.toText q := fun h => hpq (PeerId.toText_injective h)
    simp [Known, removePeer, hpq, htext]

theorem nodup_addPeer {s : MeshState P} (p : P) (h : s.activePeers.Nodup) :
    (addPeer s p).activePeers.Nodup := by
  rw [addPeer]
  split
  · exact h
  · next hnot =>
    rw [← List.concat_eq_append]
    exact h.concat hnot

theorem nodup_removePeer {s : MeshState P} (p : P) (h : s.activePeers.Nodup) :
    (removePeer s p).activePeers.Nodup := h.filter _

theorem addPeers (list : List P) (s : MeshState P) :
    (list.foldl addPeer s).connections = s.connections ∧
      (s.activePeers.Nodup → (list.foldl addPeer s).activePeers.Nodup) ∧
      ∀ p, Known (list.foldl addPeer s) p ↔ p ∈ list ∨ Known s p := by
  induction list generalizing s with
  | nil => exact ⟨rfl, id, fun p => by simp⟩
  | cons q list ih =>
    obtain ⟨hconnections, hnodup, hknown⟩ := ih (addPeer s q)
    refine ⟨hconnections, fun h => hnodup (nodup_addPeer q h), fun p => ?_⟩
    rw [List.foldl_cons, hknown, known_addPeer, List.mem_cons]
    tauto

theorem removePeers (list : List P) (s : MeshState P) :
    (list.foldl removePeer s).connections = s.connections ∧
      (s.activePeers.Nodup → (list.foldl removePeer s).activePeers.Nodup) ∧
      ∀ p, Known (list.foldl removePeer s) p ↔ p ∉ list ∧ Known s p := by
  induction list generalizing s with
  | nil => exact ⟨rfl, id, fun p => by simp⟩
  | cons q list ih =>
    obtain ⟨hconnections, hnodup, hknown⟩ := ih (removePeer s q)
    refine ⟨hconnections, fun h => hnodup (nodup_removePeer q h), fun p => ?_⟩
    rw [List.foldl_cons, hknown, known_removePeer, List.mem_cons]
    tauto

theorem nodup_step (s : MeshState P) (e : SwarmEvent P) (h : s.activePeers.Nodup) :
    (step s e).activePeers.Nodup := by
  cases e with
  | connectionEstablished p => exact nodup_addPeer p h
  | connectionClosed p => exact nodup_removePeer p h
  | mdnsDiscovered list => exact (addPeers list s).2.1 h
  | mdnsExpired list => exact (removePeers list s).2.1 h

/-- No peer is active twice, and every peer with an open connection is active and explicit. -/
structure Consistent (s : MeshState P) : Prop where
  nodup : s.activePeers.Nodup
  connected : ∀ p ∈ s.connections, Known s p

def Keeps (s : MeshState P) : SwarmEvent P → Prop
  | .connectionEstablished _ => True
  | .connectionClosed peerId => peerId ∉ s.connections.erase peerId
  | .mdnsDiscovered _ => True
  | .mdnsExpired list => ∀ p ∈ list, p ∉ s.connections

theorem consistent_step (s : MeshState P) (e : SwarmEvent P) (h : Consistent s) :
    Consistent (step s e) ↔ Keeps s e := by
  have hnodup := nodup_step s e h.nodup
  cases e with
  | connectionEstablished p =>
    refine iff_of_true ⟨hnodup, ?_⟩ trivial
    intro q hq
    change Known (addPeer s p) q
    rw [known_addPeer]
    cases List.mem_cons.1 hq with
    | inl heq => exact .inl heq
    | inr hmem => exact .inr (h.connected q hmem)
  | connectionClosed p =>
    constructor
    · intro hafter hmem
      exact (known_removePeer.1 (hafter.connected p hmem)).1 rfl
    · intro hlast
      refine ⟨hnodup, fun q hq => ?_⟩
      change Known (removePeer s p) q
      rw [known_removePeer]
      exact ⟨fun heq => hlast (heq ▸ hq), h.connected q (List.mem_of_mem_erase hq)⟩
  | mdnsDiscovered list =>
    obtain ⟨hconnections, _, hknown⟩ := addPeers list s
    refine iff_of_true ⟨hnodup, ?_⟩ trivial
    intro q hq
    rw [step, hconnections] at hq
    exact (hknown q).2 (.inr (h.connected q hq))
  | mdnsExpired list =>
    obtain ⟨hconnections, _, hknown⟩ := removePeers list s
    constructor
    · intro hafter q hq hmem
      have hconnected : q ∈ (step s (.mdnsExpired list)).connections := by
        rw [step, hconnections]
        exact hmem
      exact ((hknown q).1 (hafter.connected q hconnected)).1 hq
    · intro hnone
      refine ⟨hnodup, fun q hq => ?_⟩
      rw [step, hconnections] at hq
      exact (hknown q).2 ⟨fun hmem => hnone q hmem hq, h.connected q hq⟩

omit [DecidableEq P] in
theorem consistent_start : Consistent (MeshState.start : MeshState P) where
  nodup := List.nodup_nil
  connected := fun _ h => by cases h

/-- No peer is ever active twice. All through a run the connected peers are active and explicit exactly
if no event takes out a peer that has a connection left. -/
theorem peers_consistent_iff (events : List (SwarmEvent P)) :
    (∀ n, (Run.exec step (MeshState.start : MeshState P) (events.take n)).activePeers.Nodup) ∧
    ((∀ n, Consistent (Run.exec step (MeshState.start : MeshState P) (events.take n))) ↔
      Run.Along step Keeps MeshState.start events) := by
  constructor
  · intro n
    exact Run.invariant_of_step nodup_step List.nodup_nil (events.take n)
  · exact Run.always_iff consistent_step consistent_start events

/-- Over TCP and QUIC at once; one of the two connections closes. -/
theorem peers_second_connection : ¬∀ (events : List (SwarmEvent String)) (n : ℕ),
    Consistent (Run.exec step MeshState.start (events.take n)) := by
  intro h
  have hconsistent := h [.connectionEstablished "peer", .connectionEstablished "peer",
    .connectionClosed "peer"] 3
  have hknown := hconsistent.connected "peer" (by decide)
  exact absurd hknown.1 (by decide)

end Slakshna.Peers

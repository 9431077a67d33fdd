import Slakshna.Lib.Run
import Slakshna.Lib.HashMap
import Slakshna.Chain.LatticeBlock

/-! The lattice: one chain of blocks for each node id, grown by `addLatticeBlock` from gossip and
from the node's own epoch loop alike. The only check made on a block is that of its own hash. -/
namespace Slakshna
open LatticeBlock

abbrev LatticeChains (F : Type) := HashMap String (List (LatticeBlock F))

namespace Chains
section Links
variable {F : Type}

def chainOf (chains : LatticeChains F) (id : String) : List (LatticeBlock F) :=
  (chains.lookup id).getD []

@[simp] theorem chainOf_empty (id : String) : chainOf (∅ : LatticeChains F) id = [] := rfl

def LinkedFrom : String → List (LatticeBlock F) → Prop
  | _, [] => True
  | h, b :: bs => b.prevHash = h ∧ LinkedFrom b.hash bs

def HashLinked (chain : List (LatticeBlock F)) : Prop := LinkedFrom genesisHash chain

def tailFrom (h : String) (chain : List (LatticeBlock F)) : String :=
  match chain.getLast? with
  | some b => b.hash
  | none => h

def tailHash (chain : List (LatticeBlock F)) : String := tailFrom genesisHash chain

theorem tailFrom_cons (h : String) (b : LatticeBlock F) (bs : List (LatticeBlock F)) :
    tailFrom h (b :: bs) = tailFrom b.hash bs := by
  simp only [tailFrom, List.getLast?_cons]
  cases bs.getLast? <;> rfl

theorem linkedFrom_append (h : String) (xs ys : List (LatticeBlock F)) :
    LinkedFrom h (xs ++ ys) ↔ LinkedFrom h xs ∧ LinkedFrom (tailFrom h xs) ys := by
  induction xs generalizing h with
  | nil => simp [LinkedFrom, tailFrom]
  | cons x xs ih => simp [LinkedFrom, ih, tailFrom_cons, and_assoc]

def AllLinked (chains : LatticeChains F) : Prop :=
  ∀ id chain, chains.lookup id = some chain → HashLinked chain

theorem allLinked_iff (chains : LatticeChains F) :
    AllLinked chains ↔ ∀ id, HashLinked (chainOf chains id) := by
  constructor
  · intro h id
    cases hc : chains.lookup id with
    | none => simp [chainOf, hc, HashLinked, LinkedFrom]
    | some chain => simpa [chainOf, hc] using h id chain hc
  · intro h id chain hc
    simpa [chainOf, hc] using h id

theorem allLinked_empty : AllLinked (∅ : LatticeChains F) := by
  intro id chain h
  simp at h

end Links

section Store
variable {F : Type} [LeBytes F] [Sha256]

def HashOk (b : LatticeBlock F) : Prop := b.hash = b.calculateHash

instance (b : LatticeBlock F) : Decidable (HashOk b) := inferInstanceAs (Decidable (_ = _))

def addLatticeBlock (chains : LatticeChains F) (block : LatticeBlock F) : LatticeChains F :=
  if block.hash ≠ block.calculateHash then chains
  else chains.push block.nodeId block

def receive (chains : LatticeChains F) (blocks : List (LatticeBlock F)) : LatticeChains F :=
  Run.exec addLatticeBlock chains blocks

theorem hashOk_sealed (b : LatticeBlock F) : HashOk b.sealed := rfl

theorem add_of_hashOk (chains : LatticeChains F) {b : LatticeBlock F} (h : HashOk b) :
    addLatticeBlock chains b = chains.push b.nodeId b := if_neg (not_not_intro h)

theorem add_of_not_hashOk (chains : LatticeChains F) {b : LatticeBlock F} (h : ¬ HashOk b) :
    addLatticeBlock chains b = chains := if_pos h

theorem receive_cons (chains : LatticeChains F) (b : LatticeBlock F) (bs : List (LatticeBlock F)) :
    receive chains (b :: bs) = receive (addLatticeBlock chains b) bs := rfl

theorem chainOf_add (chains : LatticeChains F) (b : LatticeBlock F) (id : String) :
    chainOf (addLatticeBlock chains b) id =
      chainOf chains id ++ (if HashOk b ∧ b.nodeId = id then [b] else []) := by
  by_cases h : HashOk b
  · by_cases hid : b.nodeId = id
    · subst hid
      simp [add_of_hashOk chains h, chainOf, HashMap.push, h]
    · simp [add_of_hashOk chains h, chainOf, HashMap.push, hid,
        HashMap.lookup_upsert_ne _ _ _ (Ne.symm hid)]
  · simp [add_of_not_hashOk chains h, h]

theorem chainOf_receive (chains : LatticeChains F) (blocks : List (LatticeBlock F)) (id : String) :
    chainOf (receive chains blocks) id =
      chainOf chains id ++ blocks.filter (fun b => HashOk b ∧ b.nodeId = id) := by
  induction blocks generalizing chains with
  | nil => simp [receive]
  | cons b bs ih =>
    rw [receive_cons, ih, chainOf_add, List.append_assoc, List.filter_cons]
    by_cases h : HashOk b ∧ b.nodeId = id <;> simp [h]

theorem chainOf_add_sealed (b : LatticeBlock F) (id : String) :
    chainOf (addLatticeBlock ∅ b.sealed) id = if b.nodeId = id then [b.sealed] else [] := by
  rw [chainOf_add, chainOf_empty, List.nil_append]
  simp only [hashOk_sealed, true_and]
  rfl

theorem allValues_receive (chains : LatticeChains F) (blocks : List (LatticeBlock F)) :
    (receive chains blocks).allValues.Perm
      (blocks.filter (fun b => HashOk b) ++ chains.allValues) := by
  induction blocks generalizing chains with
  | nil => simp [receive]
  | cons b bs ih =>
    rw [receive_cons]
    refine (ih _).trans ?_
    by_cases h : HashOk b
    · rw [add_of_hashOk chains h, List.filter_cons_of_pos (by simpa using h)]
      exact ((HashMap.allValues_push chains b.nodeId b).append_left _).trans List.perm_middle
    · simp [add_of_not_hashOk chains h, h]

theorem hashOk_of_stored {blocks : List (LatticeBlock F)} {b : LatticeBlock F}
    (h : b ∈ (receive ∅ blocks).allValues) : HashOk b := by
  have hmem := (allValues_receive ∅ blocks).mem_iff.1 h
  simp only [List.mem_append, List.mem_filter, decide_eq_true_eq] at hmem
  rcases hmem with ⟨_, hok⟩ | hempty
  · exact hok
  · simp [HashMap.allValues] at hempty

/-- The delivered block continues its author's chain, should it be accepted. -/
def NamesTail (chains : LatticeChains F) (b : LatticeBlock F) : Prop :=
  HashOk b → b.prevHash = tailHash (chainOf chains b.nodeId)

theorem allLinked_add (chains : LatticeChains F) (b : LatticeBlock F) :
    AllLinked (addLatticeBlock chains b) ↔ AllLinked chains ∧ NamesTail chains b := by
  simp only [allLinked_iff, HashLinked, chainOf_add, linkedFrom_append]
  constructor
  · intro h
    refine ⟨fun id => (h id).1, fun hb => ?_⟩
    have hlink := (h b.nodeId).2
    simp only [hb, and_self, if_true, LinkedFrom, and_true] at hlink
    exact hlink
  · rintro ⟨hall, hb⟩ id
    refine ⟨hall id, ?_⟩
    by_cases h : HashOk b ∧ b.nodeId = id
    · obtain ⟨hok, rfl⟩ := h
      simp only [hok, and_self, if_true, LinkedFrom, and_true]
      exact hb hok
    · simp [h, LinkedFrom]

/-- What a run leaves in the chains, and when they are linked: nothing in `addLatticeBlock` looks
at `prevHash`, so the links hold exactly when every accepted delivery named the tail it met. -/
theorem receive_chains (blocks : List (LatticeBlock F)) :
    (∀ id, chainOf (receive ∅ blocks) id =
      blocks.filter (fun b => HashOk b ∧ b.nodeId = id)) ∧
    (AllLinked (receive ∅ blocks) ↔ Run.Along addLatticeBlock NamesTail ∅ blocks) := by
  refine ⟨fun id => by simp [chainOf_receive], ?_⟩
  have h : AllLinked (receive ∅ blocks) ↔
      AllLinked ∅ ∧ Run.Along addLatticeBlock NamesTail ∅ blocks :=
    Run.exec_iff allLinked_add (∅ : LatticeChains F) blocks
  rwa [iff_true_intro allLinked_empty, true_and] at h

end Store

def unlinkedBlock : LatticeBlock F64 := ⟨"node", "", .proposal "" "", "", ""⟩

/-- A block with a correct hash is stored as the first of its chain whatever it names before it. -/
theorem receive_unlinked : ¬ ∃ _ : Sha256, ∀ blocks : List (LatticeBlock F64),
    AllLinked (receive ∅ blocks) := by
  intro hall
  obtain ⟨_, h⟩ := hall
  have hstored : chainOf (receive ∅ [unlinkedBlock.sealed]) "node" = [unlinkedBlock.sealed] :=
    chainOf_add_sealed unlinkedBlock "node"
  have hlinked := (allLinked_iff _).1 (h [unlinkedBlock.sealed]) "node"
  rw [hstored] at hlinked
  have hprev : unlinkedBlock.prevHash = genesisHash := hlinked.1
  exact absurd hprev (by decide)

end Chains
end Slakshna

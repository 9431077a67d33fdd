import Mathlib.Logic.Function.Basic
import Mathlib.Tactic.NormNum
import Slakshna.Lib.Refine
import Slakshna.Chain.LatticeBlock

/-! What a node keeps in its database, over any calls and restarts: the key behind its address, a
height and a state root. Whether a read or a write of the database fails is decided from outside. -/
namespace Slakshna.Store

abbrev Secret := { bs : Bytes // bs.length = 32 }

structure Crypto where
  SigningKey : Type
  VerifyingKey : Type
  fromBytes : Secret → SigningKey
  toBytes : SigningKey → Secret
  verifyingKey : SigningKey → VerifyingKey
  asBytes : VerifyingKey → Bytes
  bech32 : String → Bytes → String
  fromBytes_toBytes : ∀ k, fromBytes (toBytes k) = k

variable (crypto : Crypto)

structure Keypair where
  signingKey : crypto.SigningKey
  verifyingKey : crypto.VerifyingKey

namespace Keypair
variable {crypto}

def generate (signingKey : crypto.SigningKey) : Keypair crypto :=
  ⟨signingKey, crypto.verifyingKey signingKey⟩

def fromBytes (bytes : Secret) : Keypair crypto :=
  let signingKey := crypto.fromBytes bytes
  ⟨signingKey, crypto.verifyingKey signingKey⟩

def toBytes (k : Keypair crypto) : Secret := crypto.toBytes k.signingKey

def addressHrp : String := "iiitd1"

def address [Sha256] (k : Keypair crypto) : String :=
  crypto.bech32 addressHrp ((Sha256.digest (crypto.asBytes k.verifyingKey)).take 20)

theorem fromBytes_toBytes (signingKey : crypto.SigningKey) :
    fromBytes (generate signingKey).toBytes = generate signingKey := by
  simp only [fromBytes, toBytes, generate, crypto.fromBytes_toBytes]

end Keypair

inductive StoreError where
  | db
  | invalidKeypairBytes
  | invalidHeightBytes
  | utf8
  deriving DecidableEq

structure State where
  db : Bytes → Option Bytes
  keypair : Option (Keypair crypto)

structure Io where
  reads : Bool
  writes : Bool

inductive Op where
  | new
  | getOrCreateMasterAddress (random : crypto.SigningKey)
  | getKeypair
  | setStateRoot (root : String)
  | getStateRoot
  | setHeight (height : UInt64)
  | getHeight
  | getStateSnapshot

structure StateSnapshot (F : Type) where
  height : UInt64
  recentBlocks : List (LatticeBlock F)

inductive Answer (F : Type) where
  | done
  | address (address : String)
  | keypair (keypair : Option (Keypair crypto))
  | root (root : String)
  | height (height : UInt64)
  | snapshot (snapshot : StateSnapshot F)
  | error (e : StoreError)

def keypairKey : Bytes := Bytes.ofText "meta:keypair"

def rootKey : Bytes := Bytes.ofText "meta:state_root"

def heightKey : Bytes := Bytes.ofText "meta:height"

def genesisRoot : String := String.ofList (List.replicate 64 '0')

def heightBytes (height : UInt64) : Bytes := Bytes.ofNat 8 height.toNat

def heightOfBytes (bytes : Bytes) : Except StoreError UInt64 :=
  if bytes.length = 8 then .ok (UInt64.ofNat (Bytes.toNat bytes)) else .error .invalidHeightBytes

def rootOfBytes (bytes : Bytes) : Except StoreError String :=
  match Bytes.toText? bytes with
  | some root => .ok root
  | none => .error .utf8

section Step
variable {crypto} {F : Type}

def State.get (s : State crypto) (io : Io) (key : Bytes) : Except StoreError (Option Bytes) :=
  if io.reads then .ok (s.db key) else .error .db

def State.put (s : State crypto) (io : Io) (key value : Bytes) :
    Except StoreError (State crypto) :=
  if io.writes then .ok { s with db := Function.update s.db key (some value) } else .error .db

def keypairOfBytes (bytes : Bytes) : Except StoreError (Keypair crypto) :=
  if h : bytes.length = 32 then .ok (Keypair.fromBytes ⟨bytes, h⟩) else .error .invalidKeypairBytes

def getOrCreateMasterAddress [Sha256] (s : State crypto) (io : Io) (random : crypto.SigningKey) :
    Except StoreError (State crypto × String) := do
  match ← s.get io keypairKey with
  | some bytes =>
    let keypair ← keypairOfBytes bytes
    return ({ s with keypair := some keypair }, keypair.address)
  | none =>
    let keypair := Keypair.generate random
    let s' ← s.put io keypairKey keypair.toBytes
    return ({ s' with keypair := some keypair }, keypair.address)

def getStateRoot (s : State crypto) (io : Io) : Except StoreError String := do
  match ← s.get io rootKey with
  | some bytes => rootOfBytes bytes
  | none => return genesisRoot

def getHeight (s : State crypto) (io : Io) : Except StoreError UInt64 := do
  match ← s.get io heightKey with
  | some bytes => heightOfBytes bytes
  | none => return 0

def getStateSnapshot (s : State crypto) (io : Io) : Except StoreError (StateSnapshot F) := do
  return ⟨← getHeight s io, []⟩

def after {α σ : Type} (s : σ) (ok : α → σ × Answer crypto F) :
    Except StoreError α → σ × Answer crypto F
  | .ok a => ok a
  | .error e => (s, .error e)

def step [Sha256] (s : State crypto) : Op crypto × Io → State crypto × Answer crypto F
  | (.new, _) => ({ s with keypair := none }, .done)
  | (.getOrCreateMasterAddress random, io) =>
    after s (fun a => (a.1, .address a.2)) (getOrCreateMasterAddress s io random)
  | (.getKeypair, _) => (s, .keypair s.keypair)
  | (.setStateRoot root, io) => after s (·, .done) (s.put io rootKey (Bytes.ofText root))
  | (.getStateRoot, io) => after s (s, .root ·) (getStateRoot s io)
  | (.setHeight height, io) => after s (·, .done) (s.put io heightKey (heightBytes height))
  | (.getHeight, io) => after s (s, .height ·) (getHeight s io)
  | (.getStateSnapshot, io) => after s (s, .snapshot ·) (getStateSnapshot s io)

end Step

/-! What the database is for: it keeps what was last put in. -/

structure Record where
  master : Option crypto.SigningKey
  loaded : Bool
  root : Option String
  height : Option UInt64

section Record
variable {crypto} {F : Type}

def Record.empty : Record crypto := ⟨none, false, none, none⟩

def Record.keypair (r : Record crypto) : Option (Keypair crypto) :=
  if r.loaded then r.master.map Keypair.generate else none

def reading (io : Io) (answer : Answer crypto F) : Answer crypto F :=
  if io.reads then answer else .error .db

def writing (io : Io) (r r' : Record crypto) : Record crypto × Answer crypto F :=
  if io.writes then (r', .done) else (r, .error .db)

def Record.step [Sha256] (r : Record crypto) : Op crypto × Io → Record crypto × Answer crypto F
  | (.new, _) => ({ r with loaded := false }, .done)
  | (.getOrCreateMasterAddress random, io) =>
    if io.reads ∧ (io.writes ∨ r.master.isSome) then
      let master := r.master.getD random
      ({ r with master := some master, loaded := true }, .address (Keypair.generate master).address)
    else (r, .error .db)
  | (.getKeypair, _) => (r, .keypair r.keypair)
  | (.setStateRoot root, io) => writing io r { r with root := some root }
  | (.getStateRoot, io) => (r, reading io (.root (r.root.getD genesisRoot)))
  | (.setHeight height, io) => writing io r { r with height := some height }
  | (.getHeight, io) => (r, reading io (.height (r.height.getD 0)))
  | (.getStateSnapshot, io) => (r, reading io (.snapshot ⟨r.height.getD 0, []⟩))

structure Holds (s : State crypto) (r : Record crypto) : Prop where
  master : s.db keypairKey = r.master.map (fun k => ((Keypair.generate k).toBytes : Bytes))
  root : s.db rootKey = r.root.map Bytes.ofText
  height : s.db heightKey = r.height.map heightBytes
  keypair : s.keypair = r.keypair

end Record

section Simulation
variable {crypto} {F : Type} {s : State crypto} {r : Record crypto}

theorem keys_ne : keypairKey ≠ rootKey ∧ keypairKey ≠ heightKey ∧ rootKey ≠ heightKey := by
  refine ⟨?_, ?_, ?_⟩
  all_goals
    intro h
    exact absurd (Bytes.ofText_injective h) (by decide)

theorem holds_empty : Holds (⟨fun _ => none, none⟩ : State crypto) Record.empty :=
  ⟨rfl, rfl, rfl, rfl⟩

theorem rootOfBytes_ofText (root : String) : rootOfBytes (Bytes.ofText root) = .ok root := by
  rw [rootOfBytes, Bytes.toText_ofText]

theorem heightOfBytes_heightBytes (height : UInt64) :
    heightOfBytes (heightBytes height) = .ok height := by
  have hvalue : Bytes.toNat (heightBytes height) = height.toNat :=
    Bytes.toNat_ofNat (lt_of_lt_of_eq height.toNat_lt (by norm_num))
  have hlength : (heightBytes height).length = 8 := Bytes.length_ofNat 8 _
  rw [heightOfBytes, if_pos hlength, hvalue, UInt64.ofNat_toNat]

theorem keypairOfBytes_toBytes (k : crypto.SigningKey) :
    keypairOfBytes ((Keypair.generate k).toBytes : Bytes) = .ok (Keypair.generate k) := by
  rw [keypairOfBytes, dif_pos ((Keypair.generate k).toBytes).2]
  exact congrArg Except.ok (Keypair.fromBytes_toBytes k)

theorem Holds.getHeight (h : Holds s r) (io : Io) : getHeight s io =
    if io.reads then .ok (r.height.getD 0) else .error .db := by
  rw [Store.getHeight, State.get]
  cases io.reads with
  | false => rfl
  | true =>
    simp only [h.height, if_true]
    cases r.height with
    | none => rfl
    | some height => exact heightOfBytes_heightBytes height

theorem Holds.getStateRoot (h : Holds s r) (io : Io) : getStateRoot s io =
    if io.reads then .ok (r.root.getD genesisRoot) else .error .db := by
  rw [Store.getStateRoot, State.get]
  cases io.reads with
  | false => rfl
  | true =>
    simp only [h.root, if_true]
    cases r.root with
    | none => rfl
    | some root => exact rootOfBytes_ofText root

theorem getOrCreateMasterAddress_some [Sha256] {io : Io} (hreads : io.reads = true)
    {k : crypto.SigningKey} (hdb : s.db keypairKey = some ((Keypair.generate k).toBytes : Bytes))
    (random : crypto.SigningKey) : getOrCreateMasterAddress s io random =
      .ok ({ s with keypair := some (Keypair.generate k) }, (Keypair.generate k).address) := by
  rw [getOrCreateMasterAddress, State.get, if_pos hreads, hdb]
  change (keypairOfBytes ((Keypair.generate k).toBytes : Bytes) >>= fun keypair =>
    pure ({ s with keypair := some keypair }, keypair.address)) = _
  rw [keypairOfBytes_toBytes]
  rfl

theorem getOrCreateMasterAddress_none [Sha256] {io : Io} (hreads : io.reads = true)
    (hdb : s.db keypairKey = none) (random : crypto.SigningKey) :
    getOrCreateMasterAddress s io random =
      if io.writes then
        .ok (⟨Function.update s.db keypairKey (some ((Keypair.generate random).toBytes : Bytes)),
          some (Keypair.generate random)⟩, (Keypair.generate random).address)
      else .error .db := by
  rw [getOrCreateMasterAddress, State.get, if_pos hreads, hdb]
  cases hwrites : io.writes with
  | false =>
    change (s.put io _ _ >>= _) = _
    rw [State.put, hwrites]
    rfl
  | true =>
    change (s.put io _ _ >>= _) = _
    rw [State.put, hwrites]
    rfl

theorem Holds.getOrCreateMasterAddress [Sha256] (h : Holds s r) (io : Io)
    (random : crypto.SigningKey) :
    ((step s (.getOrCreateMasterAddress random, io)).2 : Answer crypto F) =
        (r.step (.getOrCreateMasterAddress random, io)).2 ∧
      Holds (step (F := F) s (.getOrCreateMasterAddress random, io)).1
        (r.step (F := F) (.getOrCreateMasterAddress random, io)).1 := by
  obtain ⟨hroot, hheight, _⟩ := keys_ne
  have hsecret := h.master
  obtain ⟨master, loaded, root, height⟩ := r
  cases hreads : io.reads with
  | false =>
    simp only [step, Store.getOrCreateMasterAddress, State.get, Record.step, hreads]
    exact ⟨rfl, h⟩
  | true =>
    cases master with
    | some k =>
      simp only [step, getOrCreateMasterAddress_some hreads hsecret, Record.step, hreads,
        Option.isSome_some, or_true, and_self, if_true]
      exact ⟨rfl, h.master, h.root, h.height, rfl⟩
    | none =>
      simp only [step, getOrCreateMasterAddress_none hreads hsecret, Record.step, hreads,
        Option.isSome_none, Bool.false_eq_true, or_false, true_and]
      cases io.writes with
      | false => exact ⟨rfl, h⟩
      | true =>
        simp only [if_true, after]
        let secret : Option Bytes := some (Keypair.generate random).toBytes
        exact ⟨rfl, Function.update_self keypairKey secret s.db,
          (Function.update_of_ne hroot.symm secret s.db).trans h.root,
          (Function.update_of_ne hheight.symm secret s.db).trans h.height, rfl⟩

theorem step_simulates [Sha256] :
    Refine.Simulates step (Record.step (F := F)) (fun (s : State crypto) r => Holds s r) := by
  intro s r e h
  obtain ⟨hroot, hheight, hrh⟩ := keys_ne
  obtain ⟨op, io⟩ := e
  cases op with
  | new => exact ⟨rfl, h.master, h.root, h.height, rfl⟩
  | getOrCreateMasterAddress random => exact h.getOrCreateMasterAddress io random
  | getKeypair => exact ⟨congrArg Answer.keypair h.keypair, h⟩
  | setStateRoot root =>
    simp only [step, State.put, Record.step, writing]
    cases io.writes with
    | false => exact ⟨rfl, h⟩
    | true =>
      simp only [if_true, after]
      exact ⟨trivial, (Function.update_of_ne hroot (some (Bytes.ofText root)) s.db).trans h.master,
        Function.update_self rootKey (some (Bytes.ofText root)) s.db,
        (Function.update_of_ne hrh.symm (some (Bytes.ofText root)) s.db).trans h.height, h.keypair⟩
  | getStateRoot =>
    simp only [step, h.getStateRoot, Record.step, reading]
    cases io.reads with
    | false => exact ⟨rfl, h⟩
    | true => exact ⟨rfl, h⟩
  | setHeight height =>
    simp only [step, State.put, Record.step, writing]
    cases io.writes with
    | false => exact ⟨rfl, h⟩
    | true =>
      simp only [if_true, after]
      exact ⟨trivial, (Function.update_of_ne hheight (some (heightBytes height)) s.db).trans h.master,
        (Function.update_of_ne hrh (some (heightBytes height)) s.db).trans h.root,
        Function.update_self heightKey (some (heightBytes height)) s.db, h.keypair⟩
  | getHeight =>
    simp only [step, h.getHeight, Record.step, reading]
    cases io.reads with
    | false => exact ⟨rfl, h⟩
    | true => exact ⟨rfl, h⟩
  | getStateSnapshot =>
    simp only [step, getStateSnapshot, h.getHeight, Record.step, reading]
    cases io.reads with
    | false => exact ⟨rfl, h⟩
    | true => exact ⟨rfl, h⟩

theorem Record.step_answer [Sha256] (r : Record crypto) (call : Op crypto × Io) :
    (∀ a, (r.step (F := F) call).2 = .address a →
      ∃ k, (r.step (F := F) call).1.master = some k ∧ (Keypair.generate k).address = a) ∧
    ∀ e, (r.step (F := F) call).2 = .error e → e = .db := by
  obtain ⟨op, io⟩ := call
  obtain ⟨reads, writes⟩ := io
  cases op with
  | getOrCreateMasterAddress random =>
    simp only [Record.step]
    split
    · refine ⟨fun a h => ⟨_, rfl, Answer.address.inj h⟩, fun e h => ?_⟩
      cases h
    · refine ⟨fun a h => ?_, fun e h => (Answer.error.inj h).symm⟩
      cases h
  | _ =>
    cases reads <;> cases writes <;>
      simp [Record.step, reading, writing, eq_comm]

theorem Record.step_master [Sha256] (r : Record crypto) (call : Op crypto × Io)
    {k : crypto.SigningKey} (h : r.master = some k) : (r.step (F := F) call).1.master = some k := by
  obtain ⟨op, io⟩ := call
  cases op with
  | getOrCreateMasterAddress random =>
    simp only [Record.step]
    split
    · exact congrArg some (by rw [h, Option.getD_some])
    · exact h
  | setStateRoot root =>
    simp only [Record.step, writing]
    split <;> exact h
  | setHeight height =>
    simp only [Record.step, writing]
    split <;> exact h
  | _ => exact h

theorem Record.run_address [Sha256] (calls : List (Op crypto × Io)) (r : Record crypto) :
    ∃ address : String, (∀ k, r.master = some k → (Keypair.generate k).address = address) ∧
      ∀ a, Answer.address (F := F) a ∈ (Refine.run Record.step r calls).2 → a = address := by
  induction calls generalizing r with
  | nil =>
    refine ⟨(r.master.map (fun k => (Keypair.generate k).address)).getD "", ?_, fun a h => ?_⟩
    · intro k hk
      rw [hk]
      rfl
    · cases h
  | cons call calls ih =>
    obtain ⟨address, hmaster, hrest⟩ := ih (r.step (F := F) call).1
    refine ⟨address, fun k hk => hmaster k (r.step_master call hk), fun a h => ?_⟩
    rcases List.mem_cons.1 h with hnow | hlater
    · obtain ⟨k, hk, ha⟩ := (r.step_answer call).1 a hnow.symm
      exact ha.symm.trans (hmaster k hk)
    · exact hrest a hlater

theorem Record.run_error [Sha256] (calls : List (Op crypto × Io)) (r : Record crypto)
    (e : StoreError) (h : Answer.error (F := F) e ∈ (Refine.run Record.step r calls).2) :
    e = .db := by
  induction calls generalizing r with
  | nil => cases h
  | cons call calls ih =>
    rcases List.mem_cons.1 h with hnow | hlater
    · exact (r.step_answer call).2 e hnow.symm
    · exact ih _ hlater

/-- From an empty directory, whatever fails and however often the node restarts: every call is
answered from what was written last, every address given is the same one, and nothing that was
written fails to be read back. -/
theorem store_answers [Sha256] (calls : List (Op crypto × Io)) :
    let answers : List (Answer crypto F) := (Refine.run step ⟨fun _ => none, none⟩ calls).2
    answers = (Refine.run Record.step Record.empty calls).2 ∧
      (∃ address, ∀ a, .address a ∈ answers → a = address) ∧
      ∀ e, .error e ∈ answers → e = .db := by
  intro answers
  have hanswers : answers = (Refine.run Record.step Record.empty calls).2 :=
    (step_simulates.run holds_empty calls).1
  obtain ⟨address, _, hall⟩ := Record.run_address (F := F) calls Record.empty
  rw [hanswers]
  exact ⟨rfl, ⟨address, hall⟩, Record.run_error calls Record.empty⟩

end Simulation

end Slakshna.Store

import Mathlib.Data.List.Nodup
import Slakshna.Lib.F64

/-! Lattice blocks and the hash that is to bind their content. SHA-256 is code outside the
repository: it enters as an arbitrary digest, and only the binding result assumes it injective. -/
namespace Slakshna

class Sha256 where
  digest : Bytes → Bytes

namespace Sha256

/-- A digest of which some values are known. It is longer than 32 bytes everywhere else, so no
other input takes one of these values. -/
@[reducible] def ofTable (table : List (Bytes × Bytes)) : Sha256 where
  digest p := (table.lookup p).getD (p ++ List.replicate 33 0)

theorem digest_ofTable (table : List (Bytes × Bytes)) (p : Bytes) :
    (ofTable table).digest p = (table.lookup p).getD (p ++ List.replicate 33 0) := rfl

theorem mem_of_lookup {table : List (Bytes × Bytes)} {p d : Bytes}
    (h : table.lookup p = some d) : (p, d) ∈ table := by
  obtain ⟨l₁, l₂, rfl, _⟩ := List.lookup_eq_some_iff.1 h
  simp

theorem ofTable_injective {table : List (Bytes × Bytes)} (hlen : ∀ e ∈ table, e.2.length = 32)
    (hn : (table.map Prod.snd).Nodup) : Function.Injective (ofTable table).digest := by
  intro p q h
  have long : ∀ {r d : Bytes}, table.lookup r = some d → ∀ s : Bytes,
      d ≠ s ++ List.replicate 33 0 := by
    intro r d hd s he
    have hd32 := hlen _ (mem_of_lookup hd)
    rw [he] at hd32
    simp at hd32
  rw [digest_ofTable, digest_ofTable] at h
  cases hp : table.lookup p with
  | some d =>
    cases hq : table.lookup q with
    | some e =>
      have hde : d = e := by simpa [hp, hq] using h
      have hpair := List.inj_on_of_nodup_map hn (mem_of_lookup hp) (mem_of_lookup hq) hde
      exact congrArg Prod.fst hpair
    | none =>
      rw [hp, hq] at h
      exact absurd h (long hp q)
  | none =>
    cases hq : table.lookup q with
    | some e =>
      rw [hp, hq] at h
      exact absurd h.symm (long hq p)
    | none => simpa [hp, hq] using h

@[reducible] def ofValues (table : List (Bytes × Bytes)) : Sha256 where
  digest p := (table.lookup p).getD (List.replicate 32 0)

theorem length_ofValues {table : List (Bytes × Bytes)} (hlen : ∀ e ∈ table, e.2.length = 32)
    (p : Bytes) : ((ofValues table).digest p).length = 32 := by
  change ((table.lookup p).getD (List.replicate 32 0)).length = 32
  cases hp : table.lookup p with
  | none => exact List.length_replicate
  | some d => exact hlen _ (mem_of_lookup hp)

end Sha256

inductive LatticeBlockType (F : Type) where
  | proposal (payloadHash compressedDelta : String)
  | evaluation (targetNode proposalHash : String) (lossDrop trustScore : F)
  deriving DecidableEq

structure LatticeBlock (F : Type) where
  nodeId : String
  prevHash : String
  blockType : LatticeBlockType F
  signature : String
  hash : String
  deriving DecidableEq

namespace LatticeBlock
open Bytes LeBytes
variable {F : Type} [LeBytes F]

def typeBytes : LatticeBlockType F → Bytes
  | .proposal payloadHash compressedDelta =>
    ofText "proposal" ++ (ofText payloadHash ++ ofText compressedDelta)
  | .evaluation targetNode proposalHash lossDrop trustScore =>
    ofText "evaluation" ++ (ofText targetNode ++ (ofText proposalHash ++
      (toLeBytes lossDrop ++ toLeBytes trustScore)))

def preimage (b : LatticeBlock F) : Bytes :=
  ofText b.nodeId ++ (ofText b.prevHash ++ typeBytes b.blockType)

def calculateHash [Sha256] (b : LatticeBlock F) : String :=
  hexEncode (Sha256.digest b.preimage)

def sealed [Sha256] (b : LatticeBlock F) : LatticeBlock F := { b with hash := b.calculateHash }

def SameContent (b c : LatticeBlock F) : Prop :=
  b.nodeId = c.nodeId ∧ b.prevHash = c.prevHash ∧ b.blockType = c.blockType

def firstField : LatticeBlockType F → String
  | .proposal payloadHash _ => payloadHash
  | .evaluation targetNode _ _ _ => targetNode

/-- Where the fields of variable length end, counted in bytes. -/
def cuts (b : LatticeBlock F) : ℕ × ℕ × ℕ :=
  ((ofText b.nodeId).length, (ofText b.prevHash).length, (ofText (firstField b.blockType)).length)

omit [LeBytes F] in
theorem cuts_eq_of_sameContent {b c : LatticeBlock F} (h : SameContent b c) : cuts b = cuts c := by
  obtain ⟨hn, hp, ht⟩ := h
  simp [cuts, hn, hp, ht]

theorem typeBytes_injective {t u : LatticeBlockType F} (h : typeBytes t = typeBytes u)
    (hl : (ofText (firstField t)).length = (ofText (firstField u)).length) : t = u := by
  have tags : ∀ r s : Bytes, ofText "proposal" ++ r ≠ ofText "evaluation" ++ s := by
    intro r s he
    have hp : ofText "proposal" = 112 :: (ofText "proposal").tail := by decide
    have hv : ofText "evaluation" = 101 :: (ofText "evaluation").tail := by decide
    rw [hp, hv] at he
    simp at he
  cases t with
  | proposal p d =>
    cases u with
    | proposal q e =>
      have hrest := List.append_cancel_left h
      obtain ⟨hp, hd⟩ := List.append_inj hrest hl
      rw [ofText_injective hp, ofText_injective hd]
    | evaluation t q l s => exact absurd h (tags _ _)
  | evaluation t q l s =>
    cases u with
    | proposal p d => exact absurd h.symm (tags _ _)
    | evaluation u r k w =>
      have hrest := List.append_cancel_left h
      obtain ⟨ht, hrest⟩ := List.append_inj hrest hl
      -- the two numbers take the last sixteen bytes, so the proposal hashes end together
      have hlen := congrArg List.length hrest
      simp only [List.length_append, length_toLeBytes] at hlen
      obtain ⟨hq, hfloats⟩ := List.append_inj hrest (by omega)
      obtain ⟨hl', hs⟩ := List.append_inj hfloats (by simp [length_toLeBytes])
      rw [ofText_injective ht, ofText_injective hq, toLeBytes_injective hl', toLeBytes_injective hs]

theorem sameContent_of_preimage_eq {b c : LatticeBlock F} (h : b.preimage = c.preimage)
    (hcuts : cuts b = cuts c) : SameContent b c := by
  simp only [cuts, Prod.mk.injEq] at hcuts
  obtain ⟨hn, hp, hf⟩ := hcuts
  obtain ⟨hnode, hrest⟩ := List.append_inj h hn
  obtain ⟨hprev, htype⟩ := List.append_inj hrest hp
  exact ⟨ofText_injective hnode, ofText_injective hprev, typeBytes_injective htype hf⟩

theorem calculateHash_eq_iff [Sha256] (hsha : Function.Injective Sha256.digest)
    (b c : LatticeBlock F) : b.calculateHash = c.calculateHash ↔ b.preimage = c.preimage := by
  constructor
  · intro h
    exact hsha (hexEncode_injective h)
  · intro h
    rw [calculateHash, calculateHash, h]

/-- The hash tells two blocks apart exactly when they are not two different cuts of one byte
string: nothing marks where one field ends and the next begins. -/
theorem calculateHash_binds_iff [Sha256] (hsha : Function.Injective Sha256.digest)
    (b c : LatticeBlock F) :
    (b.calculateHash = c.calculateHash → SameContent b c) ↔
      (b.preimage = c.preimage → cuts b = cuts c) := by
  rw [calculateHash_eq_iff hsha]
  constructor
  · intro h hpre
    exact cuts_eq_of_sameContent (h hpre)
  · intro h hpre
    exact sameContent_of_preimage_eq hpre (h hpre)

def genesisHash : String := String.ofList (List.replicate 64 '0')

def samplePayload : LatticeBlock FiniteF64 := ⟨"peer", genesisHash, .proposal "w" "d", "", ""⟩

def sampleJudgement : LatticeBlock FiniteF64 := ⟨"node", genesisHash, .evaluation "peer"
  "7778f2817687344097a7cfe5ef08d998fb5f1dd78abcef9a95b7757165b8eb70" 0 .half, "", ""⟩

@[reducible] def sampleDigest : Sha256 := Sha256.ofTable [
  (samplePayload.preimage, [119, 120, 242, 129, 118, 135, 52, 64, 151, 167, 207, 229, 239, 8, 217,
    152, 251, 95, 29, 215, 138, 188, 239, 154, 149, 183, 117, 113, 101, 184, 235, 112]),
  (sampleJudgement.preimage, [162, 103, 110, 119, 70, 152, 179, 203, 243, 114, 80, 207, 111, 23, 64,
    156, 185, 112, 84, 130, 22, 154, 93, 87, 55, 252, 73, 25, 118, 232, 28, 142])]

theorem sampleDigest_injective : Function.Injective sampleDigest.digest :=
  Sha256.ofTable_injective (by simp) (by simp)

theorem calculateHash_binds_sample :
    letI := sampleDigest
    (samplePayload.calculateHash = sampleJudgement.calculateHash →
        SameContent samplePayload sampleJudgement) ↔
      (samplePayload.preimage = sampleJudgement.preimage →
        cuts samplePayload = cuts sampleJudgement) :=
  letI := sampleDigest
  calculateHash_binds_iff sampleDigest_injective samplePayload sampleJudgement

/-- A byte of the delta moved into the payload hash leaves the block hash as it was. -/
theorem calculateHash_shifted : ¬ ∃ _ : Sha256, ∀ b c : LatticeBlock F64,
    b.calculateHash = c.calculateHash → SameContent b c := by
  intro hall
  obtain ⟨_, h⟩ := hall
  have hc := h ⟨"node", "0", .proposal "ab" "cd", "", ""⟩ ⟨"node", "0", .proposal "abc" "d", "", ""⟩
    (congrArg (fun p => hexEncode (Sha256.digest p)) (by decide))
  exact absurd hc.2.2 (by decide)

end LatticeBlock
end Slakshna

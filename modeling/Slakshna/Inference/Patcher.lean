import Slakshna.Lib.HashMap
import Slakshna.Inference.SideBuffer

/-! Which side buffer the patched attention of each layer appends to. A layer without an index of its
own takes the number of the buffers that exist, in every pass again. -/
namespace Slakshna.VLLM
open KVCache
variable {W E : Type}

structure Attention where
  layerIdx : Option ℕ
  numHiddenLayers : Option ℕ

structure AttnMetadata where
  numPrefillTokens : Option ℕ

structure Compression where
  headDim : ℕ
  keyBits : ℕ
  valueBits : ℕ
  rotationSeed : ℕ

structure KeyValue (W : Type) where
  headDim : ℕ
  kv : Chunk (W × W)

structure VLLMTurboQuantPatcher (E : Type) where
  keyBits : ℕ
  valueBits : ℕ
  protectedLayers : ℕ
  buffers : HashMap ℕ (Compression × TQSideBuffer E)

namespace VLLMTurboQuantPatcher

def init (keyBits valueBits protectedLayers : ℕ) : VLLMTurboQuantPatcher E :=
  ⟨keyBits, valueBits, protectedLayers, ∅⟩

def compression (p : VLLMTurboQuantPatcher E) (layerIdx headDim : ℕ) (attn : Attention) :
    Compression :=
  let nLayers := attn.numHiddenLayers.getD 32
  let isProt := layerIdx < p.protectedLayers ∨ nLayers ≤ layerIdx + p.protectedLayers
  { headDim := headDim
    keyBits := if isProt then min (p.keyBits + 2) 8 else p.keyBits
    valueBits := if isProt then min (p.valueBits + 2) 8 else p.valueBits
    rotationSeed := 42 + layerIdx * 13 }

def getOrCreateBuffer (p : VLLMTurboQuantPatcher E) (layerIdx headDim : ℕ) (attn : Attention) :
    VLLMTurboQuantPatcher E × (Compression × TQSideBuffer E) :=
  match p.buffers.lookup layerIdx with
  | some buf => (p, buf)
  | none =>
    let buf := (p.compression layerIdx headDim attn, TQSideBuffer.init)
    ({ p with buffers := p.buffers.insert layerIdx buf }, buf)

/-- `layer_idx`, or the number of buffers where the layer has none. -/
def layerKey (p : VLLMTurboQuantPatcher E) (attn : Attention) : ℕ :=
  attn.layerIdx.getD p.buffers.keys.length

def isDecode (attnMetadata : Option AttnMetadata) : Bool :=
  match attnMetadata with
  | none => false
  | some md => md.numPrefillTokens == some 0

/-- A call with the key of the buffer it appended to, if any. The original forward that follows uses
none of the buffers. -/
def turboquantForward (tq : Compression → Quantizer W E) (attnMetadata : Option AttnMetadata)
    (p : VLLMTurboQuantPatcher E) (attn : Attention) (x : KeyValue W) :
    VLLMTurboQuantPatcher E × Option ℕ :=
  if isDecode attnMetadata then
    let layerIdx := p.layerKey attn
    let (p, buf) := p.getOrCreateBuffer layerIdx x.headDim attn
    let buf := (buf.1, buf.2.append (tq buf.1) x.kv.tokens)
    ({ p with buffers := p.buffers.insert layerIdx buf }, some layerIdx)
  else (p, none)

end VLLMTurboQuantPatcher

structure Pass (W : Type) where
  attnMetadata : Option AttnMetadata
  inputs : ℕ → KeyValue W

def Pass.isDecode (f : Pass W) : Bool := VLLMTurboQuantPatcher.isDecode f.attnMetadata

def forwardFrom (tq : Compression → Quantizer W E) (f : Pass W) :
    ℕ → List Attention → VLLMTurboQuantPatcher E → VLLMTurboQuantPatcher E × List (Option ℕ)
  | _, [], p => (p, [])
  | i, attn :: layers, p =>
    let called := p.turboquantForward tq f.attnMetadata attn (f.inputs i)
    let rest := forwardFrom tq f (i + 1) layers called.1
    (rest.1, called.2 :: rest.2)

def forwards (tq : Compression → Quantizer W E) (layers : List Attention) :
    VLLMTurboQuantPatcher E → List (Pass W) →
      VLLMTurboQuantPatcher E × List (List (Option ℕ))
  | p, [] => (p, [])
  | p, f :: passes =>
    let pass := forwardFrom tq f 0 layers p
    let rest := forwards tq layers pass.1 passes
    (rest.1, pass.2 :: rest.2)

/-- There are no more buffers than layers, and each layer appends to a buffer of its own. -/
def OwnBuffers (layers : List Attention)
    (r : VLLMTurboQuantPatcher E × List (List (Option ℕ))) : Prop :=
  r.1.buffers.keys.length ≤ layers.length ∧
    ∃ owned : List ℕ, owned.Nodup ∧ owned.length = layers.length ∧
      ∀ pass ∈ r.2, ∀ i k : ℕ, pass[i]? = some (some k) → owned[i]? = some k

/-! The keys alone: those in use, and those the layers of a decode pass take. -/

section Keys

def hold (held : List ℕ) (k : ℕ) : List ℕ := k :: held.erase k

def key (held : List ℕ) (attn : Attention) : ℕ := attn.layerIdx.getD held.length

def taken : List ℕ → List Attention → List ℕ
  | _, [] => []
  | held, attn :: layers => key held attn :: taken (hold held (key held attn)) layers

def heldAfter : List ℕ → List Attention → List ℕ
  | held, [] => held
  | held, attn :: layers => heldAfter (hold held (key held attn)) layers

def placeKeys (i : ℕ) (layers : List Attention) : List ℕ :=
  (layers.zipIdx i).map (fun e => e.1.layerIdx.getD e.2)

def Fresh (held ks : List ℕ) : Prop := ks.Nodup ∧ ∀ k ∈ ks, k ∉ held

variable {held ks : List ℕ} {k i : ℕ} {layers : List Attention}

@[simp] theorem mem_hold {j : ℕ} : j ∈ hold held k ↔ j = k ∨ j ∈ held := by
  by_cases hjk : j = k
  · simp [hold, hjk]
  · simp [hold, hjk, List.mem_erase_of_ne hjk]

theorem length_hold_of_notMem (h : k ∉ held) : (hold held k).length = held.length + 1 := by
  rw [hold, List.erase_of_not_mem h, List.length_cons]

theorem length_le_hold : held.length ≤ (hold held k).length := by
  rw [hold, List.length_cons, List.length_erase]
  split <;> omega

theorem nodup_hold (h : held.Nodup) : (hold held k).Nodup :=
  List.nodup_cons.2 ⟨h.not_mem_erase, h.erase k⟩

theorem fresh_cons : Fresh held (k :: ks) ↔ k ∉ held ∧ Fresh (hold held k) ks := by
  simp only [Fresh, List.nodup_cons, List.mem_cons, forall_eq_or_imp, mem_hold, not_or]
  constructor
  · rintro ⟨⟨hk, hks⟩, hheld, hrest⟩
    exact ⟨hheld, hks, fun j hj => ⟨fun hjk => hk (hjk ▸ hj), hrest j hj⟩⟩
  · rintro ⟨hheld, hks, hrest⟩
    exact ⟨⟨fun hk => (hrest k hk).1 rfl, hks⟩, hheld, fun j hj => (hrest j hj).2⟩

@[simp] theorem length_taken : (taken held layers).length = layers.length := by
  induction layers generalizing held with
  | nil => rfl
  | cons attn layers ih => rw [taken, List.length_cons, ih, List.length_cons]

theorem nodup_heldAfter (h : held.Nodup) : (heldAfter held layers).Nodup := by
  induction layers generalizing held with
  | nil => exact h
  | cons attn layers ih => exact ih (nodup_hold h)

theorem mem_heldAfter {j : ℕ} : j ∈ heldAfter held layers ↔ j ∈ held ∨ j ∈ taken held layers := by
  induction layers generalizing held with
  | nil => simp [heldAfter, taken]
  | cons attn layers ih =>
    rw [heldAfter, taken, ih, mem_hold, List.mem_cons, or_comm (a := j = _), or_assoc]

theorem fresh_taken_iff (hheld : held.length = i) :
    Fresh held (taken held layers) ↔ Fresh held (placeKeys i layers) := by
  induction layers generalizing held i with
  | nil => exact Iff.rfl
  | cons attn layers ih =>
    have hkey : attn.layerIdx.getD i = key held attn := by rw [key, hheld]
    rw [taken, placeKeys, List.zipIdx_cons, List.map_cons, fresh_cons, fresh_cons, hkey]
    refine and_congr_right (fun hnew => ?_)
    rw [ih ((length_hold_of_notMem hnew).trans (congrArg (· + 1) hheld)), placeKeys]

theorem taken_of_fresh (hheld : held.length = i) (h : Fresh held (placeKeys i layers)) :
    taken held layers = placeKeys i layers ∧
      (heldAfter held layers).length = i + layers.length := by
  induction layers generalizing held i with
  | nil => exact ⟨rfl, hheld⟩
  | cons attn layers ih =>
    have hkey : attn.layerIdx.getD i = key held attn := by rw [key, hheld]
    rw [placeKeys, List.zipIdx_cons, List.map_cons, fresh_cons, hkey] at h
    obtain ⟨hnew, hrest⟩ := h
    obtain ⟨htaken, hlen⟩ := ih ((length_hold_of_notMem hnew).trans (congrArg (· + 1) hheld)) hrest
    constructor
    · rw [taken, htaken, placeKeys, placeKeys, List.zipIdx_cons, List.map_cons, hkey]
    · rw [heldAfter, hlen, List.length_cons]
      omega

theorem taken_of_indexed (h : ∀ attn ∈ layers, attn.layerIdx ≠ none) :
    taken held layers = placeKeys i layers := by
  induction layers generalizing held i with
  | nil => rfl
  | cons attn layers ih =>
    obtain ⟨hattn, hrest⟩ := List.forall_mem_cons.1 h
    obtain ⟨j, hj⟩ := Option.ne_none_iff_exists'.1 hattn
    rw [taken, ih (i := i + 1) hrest, placeKeys, placeKeys, List.zipIdx_cons, List.map_cons, key, hj]
    rfl

theorem length_le_of_taken {attn : Attention} (h : layers[i]? = some attn)
    (hnone : attn.layerIdx = none) (hk : (taken held layers)[i]? = some k) : held.length ≤ k := by
  induction layers generalizing held i with
  | nil => cases h
  | cons first layers ih =>
    cases i with
    | zero =>
      obtain rfl : first = attn := Option.some.inj h
      obtain rfl : key held first = k := Option.some.inj hk
      rw [key, hnone]
      exact le_refl _
    | succ i => exact length_le_hold.trans (ih h hk)

end Keys

section Passes
variable {held : List ℕ} {layers : List Attention}

def takenIn (layers : List Attention) : List ℕ → ℕ → List (List ℕ)
  | _, 0 => []
  | held, n + 1 => taken held layers :: takenIn layers (heldAfter held layers) n

def heldIn (layers : List Attention) : List ℕ → ℕ → List ℕ
  | held, 0 => held
  | held, n + 1 => heldIn layers (heldAfter held layers) n

theorem nodup_heldIn (h : held.Nodup) (n : ℕ) : (heldIn layers held n).Nodup := by
  induction n generalizing held with
  | zero => exact h
  | succ n ih => exact ih (nodup_heldAfter h)

/-- Each layer takes a key of its own, the same one in every pass, and no more keys are held than
there are layers. -/
def OwnKeys (layers : List Attention) (n : ℕ) : Prop :=
  (heldIn layers [] n).length ≤ layers.length ∧
    ∃ owned : List ℕ, owned.Nodup ∧ owned.length = layers.length ∧
      ∀ ks ∈ takenIn layers [] n, ks = owned

theorem mem_heldIn {n j : ℕ} (h : j ∈ heldIn layers held n) :
    j ∈ held ∨ ∃ ks ∈ takenIn layers held n, j ∈ ks := by
  induction n generalizing held with
  | zero => exact .inl h
  | succ n ih =>
    rcases ih h with hheld | ⟨ks, hks, hj⟩
    · rcases mem_heldAfter.1 hheld with hbefore | hnow
      · exact .inl hbefore
      · exact .inr ⟨_, List.mem_cons_self, hnow⟩
    · exact .inr ⟨ks, List.mem_cons_of_mem _ hks, hj⟩

theorem takenIn_of_indexed (h : ∀ attn ∈ layers, attn.layerIdx ≠ none) {n : ℕ} :
    ∀ ks ∈ takenIn layers held n, ks = placeKeys 0 layers := by
  induction n generalizing held with
  | zero => exact fun ks hks => absurd hks List.not_mem_nil
  | succ n ih => exact List.forall_mem_cons.2 ⟨taken_of_indexed h, ih⟩

theorem length_placeKeys {i : ℕ} : (placeKeys i layers).length = layers.length := by
  rw [placeKeys, List.length_map, List.length_zipIdx]

theorem getElem?_placeKeys {i : ℕ} {attn : Attention} (h : layers[i]? = some attn) :
    (placeKeys 0 layers)[i]? = some (attn.layerIdx.getD i) := by
  rw [placeKeys, List.getElem?_map, List.getElem?_zipIdx, h, Nat.zero_add]
  rfl

theorem nodup_placeKeys_iff (h : ∀ attn ∈ layers, attn.layerIdx ≠ none) :
    (placeKeys 0 layers).Nodup ↔ (layers.map Attention.layerIdx).Nodup := by
  have hsome : (placeKeys 0 layers).map some = layers.map Attention.layerIdx := by
    apply List.ext_getElem?
    intro i
    rw [List.getElem?_map, List.getElem?_map]
    cases hi : layers[i]? with
    | none =>
      rw [List.getElem?_eq_none (length_placeKeys.trans_le (List.getElem?_eq_none_iff.1 hi))]
      rfl
    | some attn =>
      obtain ⟨j, hj⟩ := Option.ne_none_iff_exists'.1 (h attn (List.mem_of_getElem? hi))
      rw [getElem?_placeKeys hi, hj]
      exact congrArg some hj.symm
  rw [← hsome, List.nodup_map_iff (Option.some_injective ℕ)]

theorem fresh_nil {ks : List ℕ} : Fresh [] ks ↔ ks.Nodup := by
  simp [Fresh]

theorem ownKeys_of_placeKeys {n : ℕ} (hnodup : (placeKeys 0 layers).Nodup)
    (h : ∀ ks ∈ takenIn layers [] n, ks = placeKeys 0 layers) : OwnKeys layers n := by
  refine ⟨?_, placeKeys 0 layers, hnodup, length_placeKeys, h⟩
  have hsub : heldIn layers [] n ⊆ placeKeys 0 layers := by
    intro j hj
    rcases mem_heldIn hj with hnil | ⟨ks, hks, hjks⟩
    · exact absurd hnil List.not_mem_nil
    · rwa [← h ks hks]
  rw [← length_placeKeys (i := 0)]
  exact (List.subperm_of_subset (nodup_heldIn List.nodup_nil n) hsub).length_le

theorem ownKeys_iff (layers : List Attention) (n : ℕ) :
    OwnKeys layers n ↔ n = 0 ∨
      (∀ attn ∈ layers, attn.layerIdx ≠ none) ∧ (layers.map Attention.layerIdx).Nodup ∨
      n = 1 ∧ (placeKeys 0 layers).Nodup := by
  constructor
  · intro h
    obtain ⟨-, owned, hnodup, -, htaken⟩ := h
    cases n with
    | zero => exact .inl rfl
    | succ n =>
      obtain ⟨hfirst, hnext⟩ := List.forall_mem_cons.1 htaken
      have hfresh := (fresh_taken_iff rfl).1 (fresh_nil.2 (hfirst ▸ hnodup))
      obtain ⟨hplaces, hlen⟩ := taken_of_fresh rfl hfresh
      have hplace := fresh_nil.1 hfresh
      cases n with
      | zero => exact .inr (.inr ⟨rfl, hplace⟩)
      | succ n =>
        have hindexed : ∀ attn ∈ layers, attn.layerIdx ≠ none := by
          intro attn hattn hnone
          obtain ⟨i, hi, hget⟩ := List.mem_iff_getElem.1 hattn
          have hget? : layers[i]? = some attn := List.getElem?_eq_some_iff.2 ⟨hi, hget⟩
          have hsecond : taken (heldAfter [] layers) layers = placeKeys 0 layers :=
            (hnext _ List.mem_cons_self).trans (hfirst.symm.trans hplaces)
          have hkey := getElem?_placeKeys hget?
          rw [← hsecond, hnone] at hkey
          have hle := length_le_of_taken hget? hnone hkey
          rw [hlen, Option.getD_none] at hle
          omega
        exact .inr (.inl ⟨hindexed, (nodup_placeKeys_iff hindexed).1 hplace⟩)
  · intro h
    rcases h with rfl | ⟨hindexed, hnodup⟩ | ⟨rfl, hnodup⟩
    · refine ⟨Nat.zero_le _, List.range layers.length, List.nodup_range, List.length_range, ?_⟩
      exact fun ks hks => absurd hks List.not_mem_nil
    · exact ownKeys_of_placeKeys ((nodup_placeKeys_iff hindexed).2 hnodup)
        (takenIn_of_indexed hindexed)
    · apply ownKeys_of_placeKeys hnodup
      intro ks hks
      rw [List.mem_singleton.1 hks]
      exact (taken_of_fresh rfl (fresh_nil.2 hnodup)).1

end Passes

section Buffers
variable {tq : Compression → Quantizer W E} {p : VLLMTurboQuantPatcher E}
variable {layers : List Attention}

namespace VLLMTurboQuantPatcher
variable {attnMetadata : Option AttnMetadata}

theorem turboquantForward_decode (h : isDecode attnMetadata = true) (attn : Attention)
    (x : KeyValue W) :
    p.turboquantForward tq attnMetadata attn x =
      let layerIdx := p.layerKey attn
      let buf := (p.buffers.lookup layerIdx).getD
        (p.compression layerIdx x.headDim attn, TQSideBuffer.init)
      let appended := (buf.1, buf.2.append (tq buf.1) x.kv.tokens)
      ({ p with buffers := p.buffers.insert layerIdx appended }, some layerIdx) := by
  simp only [turboquantForward, if_pos h, getOrCreateBuffer]
  cases p.buffers.lookup (p.layerKey attn) with
  | some buf => rfl
  | none => simp [AList.insert_insert]

theorem turboquantForward_prefill (h : isDecode attnMetadata ≠ true) (attn : Attention)
    (x : KeyValue W) : p.turboquantForward tq attnMetadata attn x = (p, none) := if_neg h

end VLLMTurboQuantPatcher

section Pass
variable {f : Pass W}

theorem forwardFrom_decode (h : f.isDecode = true) (i : ℕ) :
    (forwardFrom tq f i layers p).1.buffers.keys = heldAfter p.buffers.keys layers ∧
      (forwardFrom tq f i layers p).2 = (taken p.buffers.keys layers).map some := by
  induction layers generalizing i p with
  | nil => exact ⟨rfl, rfl⟩
  | cons attn layers ih =>
    rw [forwardFrom, VLLMTurboQuantPatcher.turboquantForward_decode h]
    obtain ⟨hkeys, htaken⟩ := ih (i + 1)
    constructor
    · rw [hkeys, AList.keys_insert]
      rfl
    · rw [htaken, AList.keys_insert]
      rfl

theorem forwardFrom_prefill (h : f.isDecode ≠ true) (i : ℕ) :
    forwardFrom tq f i layers p = (p, List.replicate layers.length none) := by
  induction layers generalizing i with
  | nil => rfl
  | cons attn layers ih =>
    rw [forwardFrom, VLLMTurboQuantPatcher.turboquantForward_prefill h, ih]
    rfl

end Pass

theorem forwards_keys (passes : List (Pass W)) :
    (forwards tq layers p passes).1.buffers.keys =
      heldIn layers p.buffers.keys (passes.countP Pass.isDecode) := by
  induction passes generalizing p with
  | nil => rfl
  | cons f passes ih =>
    rw [forwards, ih]
    by_cases hf : f.isDecode = true
    · rw [(forwardFrom_decode hf 0).1, List.countP_cons_of_pos hf]
      rfl
    · rw [forwardFrom_prefill hf, List.countP_cons_of_neg hf]

theorem eq_of_places {ks owned : List ℕ} (hlen : ks.length = owned.length) :
    (∀ i k : ℕ, (ks.map some)[i]? = some (some k) → owned[i]? = some k) ↔ ks = owned := by
  simp only [List.getElem?_map, Option.map_eq_some_iff, Option.some.injEq, exists_eq_right]
  constructor
  · intro h
    apply List.ext_getElem?
    intro i
    cases hi : ks[i]? with
    | none =>
      rw [List.getElem?_eq_none (hlen ▸ List.getElem?_eq_none_iff.1 hi)]
    | some k => exact (h i k hi).symm
  · rintro rfl i k hk
    exact hk

theorem forwards_taken {owned : List ℕ} (howned : owned.length = layers.length)
    (passes : List (Pass W)) :
    (∀ pass ∈ (forwards tq layers p passes).2,
        ∀ i k : ℕ, pass[i]? = some (some k) → owned[i]? = some k) ↔
      ∀ ks ∈ takenIn layers p.buffers.keys (passes.countP Pass.isDecode), ks = owned := by
  induction passes generalizing p with
  | nil => simp [forwards, takenIn]
  | cons f passes ih =>
    rw [forwards, List.forall_mem_cons, ih]
    by_cases hf : f.isDecode = true
    · rw [(forwardFrom_decode hf 0).1, (forwardFrom_decode hf 0).2, List.countP_cons_of_pos hf,
        takenIn, List.forall_mem_cons]
      exact and_congr_left (fun _ => eq_of_places (length_taken.trans howned.symm))
    · rw [forwardFrom_prefill hf, List.countP_cons_of_neg hf, and_iff_right]
      intro i k hnone
      have hmem := List.mem_of_getElem? hnone
      cases List.eq_of_mem_replicate hmem

end Buffers

/-- After any forward passes the patcher holds at most one buffer a layer and each layer has
appended to a buffer of its own exactly if there was no decode pass, or every layer has an index and
these differ, or there was one decode pass and the indices, with the places for those missing,
differ. -/
theorem ownBuffers_iff (tq : Compression → Quantizer W E)
    (keyBits valueBits protectedLayers : ℕ) (layers : List Attention) (passes : List (Pass W)) :
    OwnBuffers layers (forwards tq layers (.init keyBits valueBits protectedLayers) passes) ↔
      passes.countP Pass.isDecode = 0 ∨
      (∀ attn ∈ layers, attn.layerIdx ≠ none) ∧ (layers.map Attention.layerIdx).Nodup ∨
      passes.countP Pass.isDecode = 1 ∧ (placeKeys 0 layers).Nodup := by
  rw [← ownKeys_iff, OwnBuffers, OwnKeys, forwards_keys]
  refine and_congr Iff.rfl (exists_congr (fun owned => and_congr_right (fun _ => ?_)))
  exact and_congr_right (fun howned => forwards_taken howned passes)

/-- A decode pass with one token. -/
def oneToken : Pass ℕ := ⟨some ⟨some 0⟩, fun _ => ⟨1, ⟨1, 1, [fun _ _ => (0, 0)]⟩⟩⟩

/-- In a second pass the only layer appends to a second buffer. -/
theorem unindexed_two_buffers :
    ¬ OwnBuffers [⟨none, none⟩] (forwards (fun _ => LayerKVStore.plainQuantizer) [⟨none, none⟩]
      (.init 4 2 2) [oneToken, oneToken]) := by
  intro h
  have hle := h.1
  rw [forwards_keys] at hle
  revert hle
  decide

end Slakshna.VLLM

import Mathlib.Data.List.Basic
import Mathlib.Data.Fin.Basic
import Mathlib.Logic.Equiv.Fin.Basic
import Slakshna.Lib.Fallible

/-! The two key/value caches of the inference engine. A head's vector is opaque: the cast to the
cache dtype and the quantiser (norm, rotation, codebook) are given. Keys and values, which are
handled alike and have one shape, are kept in pairs. -/
namespace Slakshna.KVCache
open Fallible

abbrev Slab (batch heads : ℕ) (X : Type) := Fin batch → Fin heads → X

structure Chunk (X : Type) where
  batch : ℕ
  heads : ℕ
  tokens : List (Slab batch heads X)

inductive KVError where
  | overflow (cur new max : ℕ)
  | missingTurboQuantConfig
  | unknownStrategy (strategy : String)
  | shape
  | layerIndex
  deriving DecidableEq

/-- The text of the cache's own errors; the last two are raised by torch and Python. -/
def KVError.message? : KVError → Option String
  | .overflow cur new max => some ("StaticKVCache overflow: cur=" ++ toString cur ++ " + new=" ++
      toString new ++ " > max=" ++ toString max)
  | .missingTurboQuantConfig => some "TurboQuantConfig required for strategy='turboquant'"
  | .unknownStrategy strategy => some ("Unknown kv_cache strategy: '" ++ strategy ++
      "'. Choose static/turboquant/none.")
  | .shape => none
  | .layerIndex => none

structure Dtype (V W : Type) where
  cast : V → W
  zero : W

structure Quantizer (W E : Type) where
  encodeKey : W → E
  encodeValue : W → E
  decodeKey : E → W
  decodeValue : E → W
  zero : E

variable {V W E X Y : Type}

namespace Slab
variable {B H B' H' : ℕ}

def map (f : X → Y) (s : Slab B H X) : Slab B H Y := fun b h => f (s b h)

/-- The index read where a dimension of size `n` is broadcast to `m`. -/
def source {n m : ℕ} (h : n = m ∨ n = 1) (i : Fin m) : Fin n :=
  if e : n = m then i.cast e.symm else ⟨0, by omega⟩

def broadcast (hB : B = B' ∨ B = 1) (hH : H = H' ∨ H = 1) (s : Slab B H X) : Slab B' H' X :=
  fun b h => s (source hB b) (source hH h)

theorem broadcast_self (hB : B = B ∨ B = 1) (hH : H = H ∨ H = 1) (s : Slab B H X) :
    s.broadcast hB hH = s := by
  funext b h
  simp [broadcast, source]

theorem map_broadcast_self (hB : B = B ∨ B = 1) (hH : H = H ∨ H = 1) (xs : List (Slab B H X)) :
    xs.map (Slab.broadcast hB hH) = xs := by
  rw [List.map_congr_left (fun s _ => broadcast_self hB hH s), List.map_id']

end Slab

def castPair (dt : Dtype V W) (p : V × V) : W × W := (dt.cast p.1, dt.cast p.2)

namespace Chunk

def toDtype (dt : Dtype V W) (c : Chunk (V × V)) : Chunk (W × W) :=
  ⟨c.batch, c.heads, c.tokens.map (Slab.map (castPair dt))⟩

def cat (c d : Chunk X) : Except KVError (Chunk X) :=
  if h : d.batch = c.batch ∧ d.heads = c.heads then
    .ok ⟨c.batch, c.heads,
      c.tokens ++ d.tokens.map (Slab.broadcast (Or.inl h.1) (Or.inl h.2))⟩
  else .error .shape

theorem cat_same {B H : ℕ} (xs ys : List (Slab B H X)) :
    cat ⟨B, H, xs⟩ ⟨B, H, ys⟩ = .ok ⟨B, H, xs ++ ys⟩ := by
  simp only [cat, and_self, dif_pos]
  rw [Slab.map_broadcast_self]

end Chunk

structure StaticKVCache (W : Type) where
  batchSize : ℕ
  numHeads : ℕ
  maxSeqLen : ℕ
  seqLen : ℕ
  layers : List (List (Slab batchSize numHeads (W × W)))

namespace StaticKVCache

def init (dt : Dtype V W) (numLayers batchSize numHeads maxSeqLen : ℕ) : StaticKVCache W :=
  ⟨batchSize, numHeads, maxSeqLen, 0,
    List.replicate numLayers (List.replicate maxSeqLen (fun _ _ => (dt.zero, dt.zero)))⟩

def update (dt : Dtype V W) (c : StaticKVCache W) (states : Chunk (V × V)) (layerIdx : ℕ) :
    Except KVError (StaticKVCache W × Chunk (W × W)) :=
  let newLen := states.tokens.length
  let stop := c.seqLen + newLen
  if stop > c.maxSeqLen then .error (.overflow c.seqLen newLen c.maxSeqLen)
  else
    match c.layers[layerIdx]? with
    | none => .error .layerIndex
    | some slots =>
      if h : (states.batch = c.batchSize ∨ states.batch = 1) ∧
          (states.heads = c.numHeads ∨ states.heads = 1) then
        let new := (states.toDtype dt).tokens.map (Slab.broadcast h.1 h.2)
        let slots' := slots.take c.seqLen ++ new ++ slots.drop stop
        .ok ({ c with layers := c.layers.set layerIdx slots' },
          ⟨c.batchSize, c.numHeads, slots'.take stop⟩)
      else .error .shape

def advance (c : StaticKVCache W) (n : ℕ) : StaticKVCache W := { c with seqLen := c.seqLen + n }

def reset (dt : Dtype V W) (c : StaticKVCache W) : StaticKVCache W :=
  { c with
    seqLen := 0
    layers := c.layers.map (fun slots => slots.map (fun _ _ _ => (dt.zero, dt.zero))) }

end StaticKVCache

structure CompStore (E : Type) where
  batch : ℕ
  heads : ℕ
  rows : List (Fin (batch * heads) → E × E)

namespace CompStore

def init (q : Quantizer W E) (batch heads slots : ℕ) : CompStore E :=
  ⟨batch, heads, List.replicate slots (fun _ => (q.zero, q.zero))⟩

/-- One token's vectors, encoded and in the order of `permute(2, 0, 1, 3).reshape(T, B * H, D)`. -/
def encodeRow (q : Quantizer W E) {B H : ℕ} (s : Slab B H (W × W)) : Fin (B * H) → E × E :=
  fun i =>
    let p := finProdFinEquiv.symm i
    (q.encodeKey (s p.1 p.2).1, q.encodeValue (s p.1 p.2).2)

def storeRow (q : Quantizer W E) (c : CompStore E) (ptr : ℕ) {n : ℕ} (row : Fin n → E × E) :
    Except KVError (CompStore E) :=
  let rows := if ptr ≥ c.rows.length
    then c.rows ++ List.replicate (max 128 (c.rows.length / 2)) (fun _ => (q.zero, q.zero))
    else c.rows
  if h : n = c.batch * c.heads ∨ n = 1 then
    .ok { c with rows := rows.set ptr (fun i => row (Slab.source h i)) }
  else .error .shape

def storeTokens (q : Quantizer W E) {B H : ℕ} (c : CompStore E) (ptr : ℕ) :
    List (Slab B H (W × W)) → Except KVError (CompStore E × ℕ)
  | [] => .ok (c, ptr)
  | s :: ss => do
    let c' ← c.storeRow q ptr (encodeRow q s)
    c'.storeTokens q (ptr + 1) ss

/-- Rows `start..stop`, decoded; the shape is that of the store, not of the tokens given. -/
def decodeRange (q : Quantizer W E) (c : CompStore E) (start stop : ℕ) : Chunk (W × W) :=
  ⟨c.batch, c.heads, ((c.rows.take stop).drop start).map (fun row b h =>
    let e := row (finProdFinEquiv (b, h))
    (q.decodeKey e.1, q.decodeValue e.2))⟩

end CompStore

structure LayerKVStore (W E : Type) where
  quantizer : Quantizer W E
  maxSeqLen : ℕ
  comp : Option (CompStore E)
  compPtr : ℕ
  win : Option (Chunk (W × W))
  dec : Option (Chunk (W × W))
  decTokens : ℕ

namespace LayerKVStore

def init (q : Quantizer W E) (maxSeqLen : ℕ) : LayerKVStore W E := ⟨q, maxSeqLen, none, 0, none, none, 0⟩

def lazyAlloc (s : LayerKVStore W E) (batch heads : ℕ) : CompStore E :=
  s.comp.getD (CompStore.init s.quantizer batch heads s.maxSeqLen)

def catOpt (acc : Option (Chunk X)) (c : Chunk X) : Except KVError (Chunk X) :=
  match acc with
  | none => .ok c
  | some a => a.cat c

def compressChunk (s : LayerKVStore W E) (comp : CompStore E) (evicted : Chunk (W × W)) :
    Except KVError (LayerKVStore W E) := do
  let (comp', ptr) ← comp.storeTokens s.quantizer s.compPtr evicted.tokens
  let n := evicted.tokens.length
  if n > 0 then
    let dec' ← catOpt s.dec (comp'.decodeRange s.quantizer (ptr - n) ptr)
    return { s with
      comp := some comp', compPtr := ptr, dec := some dec', decTokens := s.decTokens + n }
  else return { s with comp := some comp', compPtr := ptr }

def storeAndGet (dt : Dtype V W) (s : LayerKVStore W E) (states : Chunk (V × V))
    (residualWindow : ℕ) : Except KVError (LayerKVStore W E × Chunk (W × W)) := do
  let comp := s.lazyAlloc states.batch states.heads
  let win ← catOpt s.win (states.toDtype dt)
  let evict := win.tokens.length - residualWindow
  let s' ← if evict > 0 then
      compressChunk { s with win := some ⟨win.batch, win.heads, win.tokens.drop evict⟩ } comp
        ⟨win.batch, win.heads, win.tokens.take evict⟩
    else pure { s with comp := some comp, win := some win }
  let full ← catOpt s'.dec ⟨win.batch, win.heads, win.tokens.drop evict⟩
  return (s', full)

section Room
variable {B H : ℕ} {s : LayerKVStore W E}

theorem catOpt_held {held : Option (Chunk X)} {xs : List (Slab B H X)}
    (h : held = some ⟨B, H, xs⟩ ∨ held = none ∧ xs = []) (ys : List (Slab B H X)) :
    catOpt held ⟨B, H, ys⟩ = .ok ⟨B, H, xs ++ ys⟩ := by
  cases h with
  | inl hsome =>
    rw [hsome]
    exact Chunk.cat_same _ _
  | inr hnone =>
    rw [hnone.1, hnone.2]
    rfl

theorem storeAndGet_keep {dt : Dtype V W} {ys : List (Slab B H (V × V))} {w : ℕ}
    {win : List (Slab B H (W × W))}
    (hcat : catOpt s.win (Chunk.toDtype dt ⟨B, H, ys⟩) = .ok ⟨B, H, win⟩) (hroom : win.length ≤ w) :
    s.storeAndGet dt ⟨B, H, ys⟩ w = (catOpt s.dec ⟨B, H, win⟩).map (fun full =>
      ({ s with comp := some (s.lazyAlloc B H), win := some ⟨B, H, win⟩ }, full)) := by
  have hnone : win.length - w = 0 := Nat.sub_eq_zero_of_le hroom
  rw [storeAndGet, hcat, ok_bind]
  simp only [hnone, lt_irrefl, if_false, List.drop_zero]
  change (catOpt s.dec ⟨B, H, win⟩ >>= fun full => pure (_, full)) = _
  cases catOpt s.dec ⟨B, H, win⟩ <;> rfl

end Room

def reset (s : LayerKVStore W E) : LayerKVStore W E :=
  { s with
    comp := s.comp.map (fun c =>
      { c with rows := c.rows.map (fun _ _ => (s.quantizer.zero, s.quantizer.zero)) })
    compPtr := 0
    win := none
    dec := none
    decTokens := 0 }

end LayerKVStore

structure TurboQuantKVCache (W E : Type) where
  residualWindow : ℕ
  seqLen : ℕ
  stores : List (LayerKVStore W E)

structure TurboQuantConfig where
  keyBits : ℕ
  valueBits : ℕ
  residualWindow : ℕ
  protectedLayers : ℕ

abbrev Quantizers (W E : Type) := ℕ → ℕ → ℕ → Quantizer W E

namespace TurboQuantKVCache

def layerQuantizer (quantizers : Quantizers W E) (cfg : TurboQuantConfig) (numLayers i : ℕ) :
    Quantizer W E :=
  let fullPrecision := i < cfg.protectedLayers ∨ i + cfg.protectedLayers ≥ numLayers
  let bits := fun b : ℕ => if fullPrecision then min (b + 2) 8 else b
  quantizers (bits cfg.keyBits) (bits cfg.valueBits) (42 + i * 13)

def init (quantizers : Quantizers W E) (cfg : TurboQuantConfig) (numLayers maxSeqLen : ℕ) :
    TurboQuantKVCache W E :=
  ⟨cfg.residualWindow, 0, (List.range numLayers).map (fun i =>
    LayerKVStore.init (layerQuantizer quantizers cfg numLayers i) maxSeqLen)⟩

def update (dt : Dtype V W) (c : TurboQuantKVCache W E) (states : Chunk (V × V)) (layerIdx : ℕ) :
    Except KVError (TurboQuantKVCache W E × Chunk (W × W)) :=
  match c.stores[layerIdx]? with
  | none => .error .layerIndex
  | some s => do
    let (s', full) ← s.storeAndGet dt states c.residualWindow
    return ({ c with stores := c.stores.set layerIdx s' }, full)

def advance (c : TurboQuantKVCache W E) (n : ℕ) : TurboQuantKVCache W E :=
  { c with seqLen := c.seqLen + n }

def reset (c : TurboQuantKVCache W E) : TurboQuantKVCache W E :=
  { c with seqLen := 0, stores := c.stores.map LayerKVStore.reset }

end TurboQuantKVCache

inductive Cache (W E : Type) where
  | static (c : StaticKVCache W)
  | turboQuant (c : TurboQuantKVCache W E)

namespace Cache

def update (dt : Dtype V W) (states : Chunk (V × V)) (layerIdx : ℕ) :
    Cache W E → Except KVError (Cache W E × Chunk (W × W))
  | .static c => (c.update dt states layerIdx).map (fun r => (.static r.1, r.2))
  | .turboQuant c => (c.update dt states layerIdx).map (fun r => (.turboQuant r.1, r.2))

def advance (n : ℕ) : Cache W E → Cache W E
  | .static c => .static (c.advance n)
  | .turboQuant c => .turboQuant (c.advance n)

def reset (dt : Dtype V W) : Cache W E → Cache W E
  | .static c => .static (c.reset dt)
  | .turboQuant c => .turboQuant c.reset

/-- `get_seq_length`: the counter, whatever the layer. -/
def getSeqLength : Cache W E → ℕ
  | .static c => c.seqLen
  | .turboQuant c => c.seqLen

end Cache

structure CacheShape where
  numLayers : ℕ
  batchSize : ℕ
  numHeads : ℕ
  maxSeqLen : ℕ

/-- Python's `lower` on letters of ASCII; no other letter becomes one of the names below. -/
def lower (s : String) : String := String.ofList (s.toList.map Char.toLower)

def buildKVCache (dt : Dtype V W) (quantizers : Quantizers W E) (strategy : String)
    (shape : CacheShape) (tqCfg : Option TurboQuantConfig) :
    Except KVError (Option (Cache W E)) :=
  let strategy := lower strategy
  if strategy = "none" then .ok none
  else if strategy = "static" then
    .ok (some (.static (.init dt shape.numLayers shape.batchSize shape.numHeads shape.maxSeqLen)))
  else if strategy = "turboquant" then
    match tqCfg with
    | none => .error .missingTurboQuantConfig
    | some cfg => .ok (some (.turboQuant (.init quantizers cfg shape.numLayers shape.maxSeqLen)))
  else .error (.unknownStrategy strategy)

theorem StaticKVCache.update_ok {dt : Dtype V W} {c c' : StaticKVCache W} {states : Chunk (V × V)}
    {layerIdx : ℕ} {out : Chunk (W × W)} (h : c.update dt states layerIdx = .ok (c', out)) :
    ∃ layers, c' = { c with layers := layers } ∧ layers.length = c.layers.length ∧
      out.batch = c.batchSize ∧ out.heads = c.numHeads := by
  simp only [StaticKVCache.update] at h
  split at h
  · simp at h
  · split at h
    · simp at h
    · split at h
      · obtain ⟨rfl, rfl⟩ := Prod.mk.inj (Except.ok.inj h)
        exact ⟨_, rfl, List.length_set, rfl, rfl⟩
      · simp at h

theorem TurboQuantKVCache.update_ok {dt : Dtype V W} {c c' : TurboQuantKVCache W E}
    {states : Chunk (V × V)} {layerIdx : ℕ} {out : Chunk (W × W)}
    (h : c.update dt states layerIdx = .ok (c', out)) :
    ∃ stores, c' = { c with stores := stores } ∧ stores.length = c.stores.length := by
  simp only [TurboQuantKVCache.update] at h
  split at h
  · simp at h
  · obtain ⟨r, -, hr⟩ := (bind_ok _ _ _).1 h
    obtain ⟨rfl, -⟩ := Prod.mk.inj (Except.ok.inj hr)
    exact ⟨_, rfl, List.length_set⟩

inductive Cache.SameBuild : Cache W E → Cache W E → Prop where
  | static (c : StaticKVCache W) (seqLen : ℕ)
      (layers : List (List (Slab c.batchSize c.numHeads (W × W))))
      (h : layers.length = c.layers.length) :
      SameBuild (.static c) (.static { c with seqLen := seqLen, layers := layers })
  | turboQuant (c : TurboQuantKVCache W E) (seqLen : ℕ) (stores : List (LayerKVStore W E))
      (h : stores.length = c.stores.length) :
      SameBuild (.turboQuant c) (.turboQuant { c with seqLen := seqLen, stores := stores })

namespace Cache

theorem SameBuild.refl : ∀ c : Cache W E, SameBuild c c
  | .static c => .static c c.seqLen c.layers rfl
  | .turboQuant c => .turboQuant c c.seqLen c.stores rfl

theorem SameBuild.trans {c d e : Cache W E} (h : SameBuild c d) (h' : SameBuild d e) :
    SameBuild c e := by
  cases h with
  | static c seqLen layers hlen =>
    cases h' with
    | static _ seqLen' layers' hlen' => exact .static c seqLen' layers' (hlen'.trans hlen)
  | turboQuant c seqLen stores hlen =>
    cases h' with
    | turboQuant _ seqLen' stores' hlen' => exact .turboQuant c seqLen' stores' (hlen'.trans hlen)

theorem update_frame {dt : Dtype V W} {c c' : Cache W E} {states : Chunk (V × V)} {layerIdx : ℕ}
    {out : Chunk (W × W)} (h : c.update dt states layerIdx = .ok (c', out)) :
    SameBuild c c' ∧ c'.getSeqLength = c.getSeqLength := by
  cases c with
  | static c =>
    obtain ⟨r, hupdate, hr⟩ := (map_ok _ _ _).1 h
    obtain ⟨layers, hc, hlen, -⟩ := StaticKVCache.update_ok hupdate
    obtain ⟨rfl, -⟩ := Prod.mk.inj hr
    rw [hc]
    exact ⟨.static c c.seqLen layers hlen, rfl⟩
  | turboQuant c =>
    obtain ⟨r, hupdate, hr⟩ := (map_ok _ _ _).1 h
    obtain ⟨stores, hc, hlen⟩ := TurboQuantKVCache.update_ok hupdate
    obtain ⟨rfl, -⟩ := Prod.mk.inj hr
    rw [hc]
    exact ⟨.turboQuant c c.seqLen stores hlen, rfl⟩

inductive Used (dt : Dtype V W) (built : Cache W E) : Cache W E → Prop where
  | built : Used dt built built
  | update (c c' : Cache W E) (states : Chunk (V × V)) (layerIdx : ℕ) (out : Chunk (W × W))
      (hc : Used dt built c) (h : c.update dt states layerIdx = .ok (c', out)) : Used dt built c'
  | advance (c : Cache W E) (n : ℕ) (hc : Used dt built c) : Used dt built (c.advance n)
  | reset (c : Cache W E) (hc : Used dt built c) : Used dt built (c.reset dt)

theorem Used.sameBuild {dt : Dtype V W} {built c : Cache W E} (h : Used dt built c) :
    SameBuild built c := by
  induction h with
  | built => exact .refl built
  | update c c' states layerIdx out _ hupdate ih => exact ih.trans (update_frame hupdate).1
  | advance c n _ ih =>
    refine ih.trans ?_
    cases c with
    | static c => exact .static c (c.seqLen + n) c.layers rfl
    | turboQuant c => exact .turboQuant c (c.seqLen + n) c.stores rfl
  | reset c _ ih =>
    refine ih.trans ?_
    cases c with
    | static c => exact .static c 0 _ (List.length_map _)
    | turboQuant c => exact .turboQuant c 0 _ (List.length_map _)

end Cache

end Slakshna.KVCache

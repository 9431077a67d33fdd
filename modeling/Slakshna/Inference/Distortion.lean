import Mathlib.Algebra.BigOperators.Fin
import Mathlib.Data.List.Forall2
import Mathlib.Tactic.Positivity
import Slakshna.Lib.Rotation
import Slakshna.Inference.CacheMemory
import Slakshna.Inference.TurboQuant

/-! How far what the quantised cache returns is from what it was given, in exact arithmetic but for the
half precision of the norms and the casts to the cache dtype. -/
namespace Slakshna.Codebook
open Rotation TopK
variable {K : Type} [Field K] [LinearOrder K] {Half : Type} {headDim : ℕ}

def LloydMax.Covers (cb : LloydMax K) (δ : K) : Prop :=
  ∀ r, |r| ≤ 1 → ∃ c ∈ cb.centroids, |r - c| ≤ δ

structure Torch.Euclidean (torch : Torch K Half headDim) : Prop where
  nonneg : ∀ x, 0 ≤ torch.norm x
  sq : ∀ x, torch.norm x ^ 2 = ∑ i, x i ^ 2

/-- How far an entry of the rotated vector can be from what is decoded for it: the distance to the
codebook and the rounding of the norm. The norm that divides is clamped and the one that is stored is
not, so nothing is gained for vectors shorter than the clamp. -/
def entryBound (torch : Torch K Half headDim) (δ : K) (x : Fin headDim → K) : K :=
  let norm := torch.norm x
  let rounding := |torch.float (torch.toHalf norm) - norm|
  if normMin ≤ norm then norm * δ + rounding * (1 + δ) else norm + (norm + rounding) * (1 + δ)

variable [IsStrictOrderedRing K]

theorem normMin_pos : (0 : K) < normMin := by
  rw [normMin]
  positivity

section Entry
variable {a n s r y δ rounding : K}

theorem centroid_abs_le (hr : |r| ≤ 1) (hy : |r - y| ≤ δ) : |y| ≤ 1 + δ := by
  calc |y| = |r - (r - y)| := by rw [sub_sub_cancel]
    _ ≤ |r| + |r - y| := abs_sub _ _
    _ ≤ 1 + δ := add_le_add hr hy

theorem entry_near (hn : 0 ≤ n) (hr : |r| ≤ 1) (hy : |r - y| ≤ δ) (hs : |s - n| ≤ rounding) :
    |s * y - n * r| ≤ n * δ + rounding * (1 + δ) := by
  have hsplit : s * y - n * r = -(n * (r - y)) + (s - n) * y := by ring
  calc |s * y - n * r| ≤ |-(n * (r - y))| + |(s - n) * y| := hsplit ▸ abs_add_le _ _
    _ = n * |r - y| + |s - n| * |y| := by rw [abs_neg, abs_mul, abs_mul, abs_of_nonneg hn]
    _ ≤ n * δ + rounding * (1 + δ) :=
      add_le_add (mul_le_mul_of_nonneg_left hy hn)
        (mul_le_mul hs (centroid_abs_le hr hy) (abs_nonneg y) ((abs_nonneg _).trans hs))

theorem entry_short (ha : |a| ≤ n) (hr : |r| ≤ 1) (hy : |r - y| ≤ δ) (hs : |s - n| ≤ rounding) :
    |s * y - a| ≤ n + (n + rounding) * (1 + δ) := by
  have hn : 0 ≤ n := (abs_nonneg a).trans ha
  have hslen : |s| ≤ n + rounding := by
    calc |s| = |n + (s - n)| := by rw [add_sub_cancel]
      _ ≤ |n| + |s - n| := abs_add_le _ _
      _ ≤ n + rounding := add_le_add (abs_of_nonneg hn).le hs
  calc |s * y - a| ≤ |s * y| + |a| := abs_sub _ _
    _ ≤ (n + rounding) * (1 + δ) + n := by
      rw [abs_mul]
      exact add_le_add (mul_le_mul hslen (centroid_abs_le hr hy) (abs_nonneg y)
        ((abs_nonneg s).trans hslen)) ha
    _ = n + (n + rounding) * (1 + δ) := add_comm _ _

end Entry

theorem rotated_coded {torch : Torch K Half headDim} (htorch : torch.Euclidean)
    {R : Matrix (Fin headDim) (Fin headDim) K} (hR : IsRotation R) {cb : LloydMax K} {δ : K}
    (hcover : cb.Covers δ) (hsize : cb.centroids.length ≤ 2 ^ 15) (x : Fin headDim → K)
    (i : Fin headDim) :
    let n := max (torch.norm x) normMin
    let r := R.mulVec (fun j => x j / n) i
    |r| ≤ 1 ∧ n * r = R.mulVec x i ∧ ∃ y,
      dequantize? cb ((compress torch R (FastLloydMaxCodebook.quantize cb) x).1 i) = some y ∧
        |r - y| ≤ δ := by
  intro n r
  have hn : 0 < n := normMin_pos.trans_le (le_max_right _ _)
  have hscaled : n * r = R.mulVec x i := by
    have hunit : (fun j => x j / n) = n⁻¹ • x := by
      funext j
      rw [Pi.smul_apply, smul_eq_mul, div_eq_inv_mul]
    simp only [r]
    rw [hunit, Matrix.mulVec_smul, Pi.smul_apply, smul_eq_mul, mul_inv_cancel_left₀ hn.ne']
  have hr : |r| ≤ 1 := by
    have hentry := (hR.abs_mulVec_le (htorch.nonneg x) (htorch.sq x) i).trans
      (le_max_left (torch.norm x) normMin)
    rw [← hscaled, abs_mul, abs_of_pos hn] at hentry
    exact le_of_mul_le_mul_left (hentry.trans_eq (mul_one n).symm) hn
  obtain ⟨c, hc, hnear⟩ := hcover r hr
  obtain ⟨y, _, hdecoded, hnearest⟩ := dequantize_quantize cb hsize
    (R.mulVec (fun j => x j / n)) i
  exact ⟨hr, hscaled, y, hdecoded, (hnearest c hc).trans hnear⟩

/-- `z` is the cast of a vector that is near `x`. -/
def CastNear (torch : Torch K Half headDim) (δ : K) (x z : Fin headDim → K) : Prop :=
  ∃ y, (∀ i, z i = torch.toDtype (y i)) ∧ sqDist y x ≤ headDim * entryBound torch δ x ^ 2

theorem decode_compress_near {torch : Torch K Half headDim} (htorch : torch.Euclidean)
    {R : Matrix (Fin headDim) (Fin headDim) K} (hR : IsRotation R) {cb : LloydMax K} {δ : K}
    (hcover : cb.Covers δ) (hsize : cb.centroids.length ≤ 2 ^ 15) (x : Fin headDim → K) :
    CastNear torch δ x
      (decode torch R cb (compress torch R (FastLloydMaxCodebook.quantize cb) x)) := by
  let e := compress torch R (FastLloydMaxCodebook.quantize cb) x
  let stored := torch.float (torch.toHalf (torch.norm x))
  let y : Fin headDim → K := fun j => (dequantize? cb (e.1 j)).getD 0
  have hentry : ∀ i, |(stored • y) i - R.mulVec x i| ≤ entryBound torch δ x := by
    intro i
    obtain ⟨hr, hscaled, c, hdecoded, hnear⟩ := rotated_coded htorch hR hcover hsize x i
    have hy : y i = c := by
      simp only [y, e]
      rw [hdecoded, Option.getD_some]
    rw [Pi.smul_apply, smul_eq_mul, hy, entryBound]
    split
    next hlong =>
      rw [max_eq_left hlong] at hr hscaled hnear
      rw [← hscaled]
      exact entry_near (htorch.nonneg x) hr hnear le_rfl
    next =>
      exact entry_short (hR.abs_mulVec_le (htorch.nonneg x) (htorch.sq x) i) hr hnear le_rfl
  have hbound := sqDist_le_of_abs_le hentry
  rw [← hR.sqDist_back, Fintype.card_fin] at hbound
  refine ⟨_, ?_, hbound⟩
  intro i
  rw [decode, Matrix.smul_vecMul, Pi.smul_apply, smul_eq_mul, mul_comm]
  rfl

end Slakshna.Codebook

namespace Slakshna.KVCache
open Codebook Rotation TopK

def TurboQuantKVCache.layerBits (cfg : TurboQuantConfig) (numLayers i bits : ℕ) : ℕ :=
  if i < cfg.protectedLayers ∨ i + cfg.protectedLayers ≥ numLayers then min (bits + 2) 8 else bits

theorem TurboQuantKVCache.layerBits_le (cfg : TurboQuantConfig) (numLayers i : ℕ) {bits : ℕ}
    (h : bits ≤ 15) : layerBits cfg numLayers i bits ≤ 15 := by
  rw [layerBits]
  split
  · omega
  · exact h

/-- What the quantisers are built from: a rotation for each seed and a codebook for each number of
bits. -/
structure Built (K Half : Type) [LinearOrder K] (headDim : ℕ) where
  torch : Torch K Half headDim
  R : ℕ → Matrix (Fin headDim) (Fin headDim) K
  cb : ℕ → LloydMax K
  zero : Half

variable {K Half : Type} [Field K] [LinearOrder K] {headDim B H : ℕ}

def Built.quantizers (built : Built K Half headDim) :
    Quantizers (Fin headDim → K) ((Fin headDim → Int16) × Half) := fun keyBits valueBits seed =>
  layerQuantizer built.torch (built.R seed) FastLloydMaxCodebook.quantize (built.cb keyBits)
    (built.cb valueBits) built.zero

structure Built.Sound (built : Built K Half headDim) (δ : ℕ → K) : Prop where
  euclidean : built.torch.Euclidean
  rotation : ∀ seed, IsRotation (built.R seed)
  levels : ∀ bits, (built.cb bits).centroids.length = 2 ^ bits
  covers : ∀ bits, (built.cb bits).Covers (δ bits)

structure NearToken (torch : Torch K Half headDim) (δKey δValue : K)
    (given returned : (Fin headDim → K) × (Fin headDim → K)) : Prop where
  key : CastNear torch δKey given.1 returned.1
  value : CastNear torch δValue given.2 returned.2

variable [IsStrictOrderedRing K] {built : Built K Half headDim} {δ : ℕ → K}

theorem Built.Sound.decode_near (h : built.Sound δ) (seed : ℕ) {bits : ℕ} (hbits : bits ≤ 15)
    (x : Fin headDim → K) : CastNear built.torch (δ bits) x
      (decode built.torch (built.R seed) (built.cb bits)
        (compress built.torch (built.R seed) (FastLloydMaxCodebook.quantize (built.cb bits)) x)) := by
  refine decode_compress_near h.euclidean (h.rotation seed) (h.covers bits) ?_ x
  rw [h.levels bits]
  exact Nat.pow_le_pow_right two_pos hbits

theorem Built.Sound.nearToken_roundTrip (h : built.Sound δ) {keyBits valueBits : ℕ} (seed : ℕ)
    (hkey : keyBits ≤ 15) (hvalue : valueBits ≤ 15) (p : (Fin headDim → K) × (Fin headDim → K)) :
    NearToken built.torch (δ keyBits) (δ valueBits) p
      ((built.quantizers keyBits valueBits seed).roundTrip p) where
  key := h.decode_near seed hkey p.1
  value := h.decode_near seed hvalue p.2

omit [Field K] [LinearOrder K] [IsStrictOrderedRing K] in
theorem reading_take_forall₂ {W E : Type} {q : Quantizer W E} {Near : W × W → W × W → Prop}
    (hround : ∀ p, Near p (q.roundTrip p)) (n : ℕ) (xs : List (Slab B H (W × W))) :
    List.Forall₂ (fun x z => ∀ b h, Near (x b h) (z b h)) (xs.take n)
      ((reading q n xs).take n) := by
  have hleft : (reading q n xs).take n = (xs.take n).map (Slab.map q.roundTrip) := by
    rw [reading]
    by_cases hn : n ≤ xs.length
    · exact List.take_left' (by rw [List.length_map, List.length_take_of_le hn])
    · rw [List.drop_eq_nil_of_le (not_le.1 hn).le, List.append_nil]
      apply List.take_of_length_le
      rw [List.length_map, List.length_take]
      exact min_le_left _ _
  rw [hleft, List.forall₂_map_right_iff]
  exact List.forall₂_same.2 (fun x _ b h => hround (x b h))

/-- After any calls, an update returns as many tokens as its layer was given since the last reset: those
in the window as they are, and each before them as the cast of one near it, by the bits of its layer. -/
theorem turboQuant_near {V : Type} (h : built.Sound δ) (dt : Dtype V (Fin headDim → K))
    (cfg : TurboQuantConfig) (hkey : cfg.keyBits ≤ 15) (hvalue : cfg.valueBits ≤ 15)
    (L maxSeqLen : ℕ) (calls : List (KVCall B H V)) (l : ℕ) (hl : l < L)
    (states : List (Slab B H (V × V))) :
    let bits := TurboQuantKVCache.layerBits cfg L l
    let cache := (Refine.run (Cache.call dt)
      (.turboQuant (.init built.quantizers cfg L maxSeqLen)) calls).1
    let given := (ledgerAfter dt (TurboQuantKVCache.layerQuantizer built.quantizers cfg L) L
      cfg.residualWindow calls).tokens l ++ castTokens dt states
    let evicted := given.length - cfg.residualWindow
    ∃ out, (cache.call dt (.update l states)).2.returned = some (.ok ⟨B, H, out⟩) ∧
      out.length = given.length ∧ out.drop evicted = given.drop evicted ∧
      List.Forall₂ (fun x z => ∀ b h, NearToken built.torch (δ (bits cfg.keyBits))
        (δ (bits cfg.valueBits)) (x b h) (z b h)) (given.take evicted) (out.take evicted) := by
  intro bits cache given evicted
  let quantizer := TurboQuantKVCache.layerQuantizer built.quantizers cfg L
  have hsimulates := turboQuant_simulates (B := B) (H := H) dt quantizer L cfg.residualWindow
  obtain ⟨_, hkeeps⟩ :=
    hsimulates.run ⟨_, rfl, keeps_init built.quantizers cfg L maxSeqLen⟩ calls
  have hanswer := (hsimulates _ _ (.update l states) hkeeps).1
  have hlength : (given.take evicted).length = evicted := List.length_take_of_le (Nat.sub_le _ _)
  refine ⟨reading (quantizer l) evicted given, ?_, ?_, ?_, ?_⟩
  · rw [hanswer, Ledger.call, if_pos hl]
    rfl
  · rw [reading, List.length_append, List.length_map, ← List.length_append, List.take_append_drop]
  · rw [reading]
    apply List.drop_left'
    rw [List.length_map, hlength]
  · exact reading_take_forall₂ (h.nearToken_roundTrip _
      (TurboQuantKVCache.layerBits_le cfg L l hkey)
      (TurboQuantKVCache.layerBits_le cfg L l hvalue)) _ _

def sampleBuilt : Built ℚ ℚ 1 where
  torch := ⟨fun x => |x (Fin.last 0)|, id, id, fun a => ⌊a⌋⟩
  R := fun _ => 1
  cb := fun bits => ⟨(List.range (2 ^ bits)).map Nat.cast, by simp,
    List.pairwise_map.2 (List.pairwise_lt_range.imp (fun hlt => Nat.cast_lt.2 hlt))⟩
  zero := 0

theorem sampleBuilt_sound : sampleBuilt.Sound (fun _ => 1) where
  euclidean := ⟨fun x => abs_nonneg _, fun x => by simp [sampleBuilt]⟩
  rotation := fun _ => by simp [sampleBuilt, IsRotation]
  levels := fun bits => by simp [sampleBuilt]
  covers := fun bits r hr =>
    ⟨0, List.mem_map.2 ⟨0, List.mem_range.2 (Nat.two_pow_pos bits), Nat.cast_zero⟩, by simpa using hr⟩

def sampleCast : Dtype ℚ (Fin 1 → ℚ) := ⟨fun a _ => a, 0⟩

def sampleCalls : List (KVCall 1 1 ℚ) := [.update 0 [fun _ _ => (3, 5), fun _ _ => (1, 2)]]

def sampleStates : List (Slab 1 1 (ℚ × ℚ)) := [fun _ _ => (7, 7)]

theorem turboQuant_near_sample :
    let cfg : TurboQuantConfig := ⟨4, 2, 1, 0⟩
    let bits := TurboQuantKVCache.layerBits cfg 1 0
    let cache := (Refine.run (Cache.call sampleCast)
      (.turboQuant (.init sampleBuilt.quantizers cfg 1 4)) sampleCalls).1
    let given := (ledgerAfter sampleCast
      (TurboQuantKVCache.layerQuantizer sampleBuilt.quantizers cfg 1) 1
      cfg.residualWindow sampleCalls).tokens 0 ++ castTokens sampleCast sampleStates
    let evicted := given.length - cfg.residualWindow
    ∃ out, (cache.call sampleCast (.update 0 sampleStates)).2.returned = some (.ok ⟨1, 1, out⟩) ∧
      out.length = given.length ∧ out.drop evicted = given.drop evicted ∧
      List.Forall₂ (fun x z => ∀ b h, NearToken sampleBuilt.torch ((fun _ => 1) (bits cfg.keyBits))
        ((fun _ => 1) (bits cfg.valueBits)) (x b h) (z b h)) (given.take evicted)
        (out.take evicted) :=
  turboQuant_near sampleBuilt_sound sampleCast ⟨4, 2, 1, 0⟩ (by decide) (by decide) 1 4
    sampleCalls 0 (by decide) sampleStates

end Slakshna.KVCache

/-! One vector in the compressor of the side buffer, where the clamped norm is the one that is stored. -/
namespace Slakshna.TurboQuant.TQCompressor
open Codebook Rotation TopK

section Reconstructed
variable {K Half : Type} [Field K] [LinearOrder K] {D : ℕ}

omit [Field K] in
theorem mem_of_dequantize {cb : LloydMax K} {index : Int16} {y : K}
    (h : dequantize? cb index = some y) : y ∈ cb.centroids := by
  rw [dequantize?] at h
  split at h
  · exact List.mem_of_getElem? h
  · exact List.mem_of_getElem? h

def rescaled (torch : Torch K Half D) (kv : Fin D → K) : Fin D → K :=
  let n := max (torch.norm kv) normMin
  (torch.float (torch.toHalf n) / n) • kv

variable [IsStrictOrderedRing K]

theorem reconstructed_best (c : TQCompressor K D) (torch : Torch K Half D) (hR : IsRotation c.R)
    (isKey : Bool) (hsize : (c.codebook isKey).centroids.length ≤ 2 ^ 15) (kv : Fin D → K)
    {indices : Fin D → Int16}
    (hindices : ∀ j, (dequantize? (c.codebook isKey) (indices j)).isSome = true) :
    sqDist (c.reconstructed torch isKey (c.compress torch isKey kv)) (rescaled torch kv) ≤
      sqDist (c.reconstructed torch isKey (indices, (c.compress torch isKey kv).2))
        (rescaled torch kv) := by
  let n := max (torch.norm kv) normMin
  let stored := torch.float (torch.toHalf n)
  let rot := rotated c.R (fun i => kv i / n)
  have hkv : c.R.mulVec (rescaled torch kv) = stored • rot := by
    have hunit : rescaled torch kv = stored • fun i => kv i / n := by
      funext i
      simp only [rescaled, Pi.smul_apply, smul_eq_mul, stored, n]
      rw [div_mul_eq_mul_div, mul_div_assoc]
    simp only [rot]
    rw [hunit, Matrix.mulVec_smul, rotated, Matrix.vecMul_transpose]
  have hrotate : ∀ idx : Fin D → Int16,
      sqDist (c.reconstructed torch isKey (idx, torch.toHalf n)) (rescaled torch kv) =
        sqDist (stored • fun j => (dequantize? (c.codebook isKey) (idx j)).getD 0)
          (stored • rot) := by
    intro idx
    rw [← hkv, ← hR.sqDist_back, Matrix.smul_vecMul]
    congr 1
    funext i
    rw [reconstructed, unrotated, Pi.smul_apply, smul_eq_mul, mul_comm]
  have hcompressed : c.compress torch isKey kv =
      (FastLloydMaxCodebook.quantize (c.codebook isKey) rot, torch.toHalf n) := rfl
  rw [hcompressed, hrotate, hrotate]
  apply sqDist_mono
  intro i
  obtain ⟨y, _, hdecoded, hnearest⟩ := dequantize_quantize (c.codebook isKey) hsize rot i
  obtain ⟨z, hother⟩ := Option.isSome_iff_exists.1 (hindices i)
  simp only [Pi.smul_apply, smul_eq_mul]
  rw [hdecoded, hother, Option.getD_some, Option.getD_some, ← mul_sub, ← mul_sub, abs_mul, abs_mul]
  refine mul_le_mul_of_nonneg_left ?_ (abs_nonneg stored)
  rw [abs_sub_comm y, abs_sub_comm z]
  exact hnearest z (mem_of_dequantize hother)

end Reconstructed

section Nearest
variable {Half : Type} {D : ℕ}

noncomputable def castError (c : TQCompressor ℝ D) (torch : Torch ℝ Half D) (isKey : Bool)
    (e : (Fin D → Int16) × Half) : ℝ :=
  eDist (c.decompress torch isKey e) (c.reconstructed torch isKey e)

/-- What is decompressed from a vector's code is as near to the vector as what any other indices decompress
to with the same norm, up to what the half precision of the norm and the casts move. -/
theorem compress_best (c : TQCompressor ℝ D) (torch : Torch ℝ Half D) (hR : IsRotation c.R)
    (isKey : Bool) (hsize : (c.codebook isKey).centroids.length ≤ 2 ^ 15) (kv : Fin D → ℝ)
    (indices : Fin D → Int16)
    (hindices : ∀ j, (dequantize? (c.codebook isKey) (indices j)).isSome = true) :
    let code := c.compress torch isKey kv
    let other := (indices, code.2)
    let halfError := eDist (rescaled torch kv) kv
    eDist (c.decompress torch isKey code) kv ≤ eDist (c.decompress torch isKey other) kv +
      (c.castError torch isKey code + c.castError torch isKey other) +
      (halfError + halfError) := by
  intro code other halfError
  have hbest := eDist_le (reconstructed_best c torch hR isKey hsize kv hindices)
  have hcode : eDist (c.decompress torch isKey code) kv ≤ c.castError torch isKey code +
      (eDist (c.reconstructed torch isKey code) (rescaled torch kv) + halfError) :=
    (eDist_triangle _ (c.reconstructed torch isKey code) _).trans
      (add_le_add_right (eDist_triangle _ (rescaled torch kv) _) _)
  have hother : eDist (c.reconstructed torch isKey other) (rescaled torch kv) ≤
      c.castError torch isKey other + (eDist (c.decompress torch isKey other) kv + halfError) := by
    rw [castError, eDist_comm (c.decompress torch isKey other)]
    refine (eDist_triangle _ (c.decompress torch isKey other) _).trans (add_le_add_right ?_ _)
    rw [show halfError = eDist kv (rescaled torch kv) from eDist_comm _ _]
    exact eDist_triangle _ kv _
  linarith

end Nearest

noncomputable def turned : TQCompressor ℝ 2 :=
  let levels : LloydMax ℝ := ⟨[-1, 0, 1], List.cons_ne_nil _ _, by simp⟩
  ⟨levels, levels, matrixAt 2 quarterTurn⟩

theorem turned_isRotation : IsRotation turned.R := by
  ext i j
  fin_cases i <;> fin_cases j <;>
    simp [turned, matrixAt, quarterTurn, Matrix.mul_apply, Fin.sum_univ_two]

theorem turned_best :
    let torch : Torch ℝ ℝ 2 := ⟨fun x => √(∑ i, x i ^ 2), id, id, id⟩
    let code := turned.compress torch true ![1, 0]
    let other := (![1, 0], code.2)
    let halfError := eDist (rescaled torch ![1, 0]) ![1, 0]
    eDist (turned.decompress torch true code) ![1, 0] ≤
      eDist (turned.decompress torch true other) ![1, 0] +
      (turned.castError torch true code + turned.castError torch true other) +
      (halfError + halfError) :=
  compress_best turned ⟨fun x => √(∑ i, x i ^ 2), id, id, id⟩ turned_isRotation true
    (by simp [codebook, turned]) ![1, 0] ![1, 0]
    (by intro j; fin_cases j <;> rfl)

end Slakshna.TurboQuant.TQCompressor

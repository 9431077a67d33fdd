import Mathlib.Data.Matrix.Mul
import Slakshna.Lib.Nearest
import Slakshna.Inference.KVCache

/-! The codebooks of the quantised cache, and what they make of one head's vector. -/
namespace Slakshna.Codebook
open Nearest
variable {K : Type} [Field K] [LinearOrder K]

/-- What both codebooks keep of `solve_lloyd_max`: its centroids, from which it computes the
boundaries last. -/
structure LloydMax (K : Type) [LinearOrder K] where
  centroids : List K
  nonempty : centroids ≠ []
  increasing : centroids.Pairwise (· < ·)

def LloydMax.boundaries (cb : LloydMax K) : List K := midpoints cb.centroids

section Quantize
variable {ι : Type}

/-- `torch.bucketize` counts the boundaries below each entry. -/
def FastLloydMaxCodebook.quantize (cb : LloydMax K) (x : ι → K) : ι → Int16 :=
  fun i => (countBelow cb.boundaries (x i)).toInt16

def LloydMaxCodebook.quantize (cb : LloydMax K) (x : ι → K) : ι → Int16 :=
  fun i => (argmin (cb.centroids.map (fun c => |x i - c|))).toInt16

/-- Indexing with a negative number counts from the end; one that is out of range raises. -/
def dequantize? (cb : LloydMax K) (index : Int16) : Option K :=
  let n := index.toInt
  if n < 0 then cb.centroids[(n + cb.centroids.length).toNat]? else cb.centroids[n.toNat]?

theorem quantize_slow [IsStrictOrderedRing K] (cb : LloydMax K) (x : ι → K) :
    FastLloydMaxCodebook.quantize cb x = LloydMaxCodebook.quantize cb x := by
  funext i
  rw [FastLloydMaxCodebook.quantize, LloydMax.boundaries, countBelow_midpoints cb.increasing]
  rfl

/-- Both codebooks find the same index for every entry, on a boundary and outside of the centroids
too. -/
theorem codebooks_agree [IsStrictOrderedRing K] (cb : LloydMax K) (x : ι → K) :
    FastLloydMaxCodebook.quantize cb x = LloydMaxCodebook.quantize cb x ∧
      ∀ i, countBelow cb.boundaries (x i) = argmin (cb.centroids.map (fun c => |x i - c|)) :=
  ⟨quantize_slow cb x, fun i => countBelow_midpoints cb.increasing (x i)⟩

theorem dequantize_quantize [IsStrictOrderedRing K] (cb : LloydMax K)
    (hsize : cb.centroids.length ≤ 2 ^ 15) (x : ι → K) (i : ι) :
    ∃ c ∈ cb.centroids, dequantize? cb (FastLloydMaxCodebook.quantize cb x i) = some c ∧
      ∀ b ∈ cb.centroids, |x i - c| ≤ |x i - b| := by
  let distances := cb.centroids.map (fun c => |x i - c|)
  have hne : distances ≠ [] := fun hnil => cb.nonempty (List.map_eq_nil_iff.1 hnil)
  obtain ⟨hlt, hmin, -⟩ := argmin_spec hne
  have hlen : argmin distances < cb.centroids.length := hlt.trans_eq (List.length_map _)
  have hindex : (argmin distances).toInt16.toInt = argmin distances :=
    Int16.toInt_ofNat_of_lt (hlen.trans_le hsize)
  refine ⟨cb.centroids[argmin distances], List.getElem_mem hlen, ?_, ?_⟩
  · have hquantize : FastLloydMaxCodebook.quantize cb x i = (argmin distances).toInt16 :=
      congrFun (quantize_slow cb x) i
    have hnonneg : ¬ (argmin distances : ℤ) < 0 := not_lt.2 (Int.natCast_nonneg _)
    rw [hquantize, dequantize?, hindex]
    simp only [hnonneg, if_false, Int.toNat_natCast]
    exact List.getElem?_eq_getElem hlen
  · intro b hb
    have hle := hmin |x i - b| (List.mem_map_of_mem hb)
    simpa [distances] using hle

def threeLevels : LloydMax ℚ := ⟨[-1, 0, 2], List.cons_ne_nil _ _, by decide⟩

theorem threeLevels_agree : FastLloydMaxCodebook.quantize threeLevels ![-1 / 2, 3] =
      LloydMaxCodebook.quantize threeLevels ![-1 / 2, 3] ∧
    ∀ i, countBelow threeLevels.boundaries (![-1 / 2, 3] i) =
      argmin (threeLevels.centroids.map (fun c => |![-1 / 2, 3] i - c|)) :=
  codebooks_agree threeLevels ![-1 / 2, 3]

end Quantize

/-! One vector of a head, compressed and back, with what torch computes for it: the norm, and the
rounding to half precision and to the cache dtype. -/

structure Torch (K Half : Type) (headDim : ℕ) where
  norm : (Fin headDim → K) → K
  toHalf : K → Half
  float : Half → K
  toDtype : K → K

variable {Half : Type} {headDim : ℕ}

def normMin : K := 1 / (10 ^ 8 : ℕ)

/-- `_compress_chunk`: normalise, rotate, quantise. -/
def compress (torch : Torch K Half headDim) (R : Matrix (Fin headDim) (Fin headDim) K)
    (quantize : (Fin headDim → K) → Fin headDim → Int16) (x : Fin headDim → K) :
    (Fin headDim → Int16) × Half :=
  (quantize (R.mulVec (fun i => x i / max (torch.norm x) normMin)), torch.toHalf (torch.norm x))

/-- `_decode_range`: look up, rotate back, scale. -/
def decode (torch : Torch K Half headDim) (R : Matrix (Fin headDim) (Fin headDim) K)
    (cb : LloydMax K) (e : (Fin headDim → Int16) × Half) : Fin headDim → K :=
  fun i => torch.toDtype
    (Matrix.vecMul (fun j => (dequantize? cb (e.1 j)).getD 0) R i * torch.float e.2)

def layerQuantizer (torch : Torch K Half headDim) (R : Matrix (Fin headDim) (Fin headDim) K)
    (quantize : LloydMax K → (Fin headDim → K) → Fin headDim → Int16) (kCb vCb : LloydMax K)
    (zero : Half) : KVCache.Quantizer (Fin headDim → K) ((Fin headDim → Int16) × Half) where
  encodeKey := compress torch R (quantize kCb)
  encodeValue := compress torch R (quantize vCb)
  decodeKey := decode torch R kCb
  decodeValue := decode torch R vCb
  zero := (0, zero)

theorem layerQuantizer_slow [IsStrictOrderedRing K] (torch : Torch K Half headDim)
    (R : Matrix (Fin headDim) (Fin headDim) K) (kCb vCb : LloydMax K) (zero : Half) :
    layerQuantizer torch R FastLloydMaxCodebook.quantize kCb vCb zero =
      layerQuantizer torch R LloydMaxCodebook.quantize kCb vCb zero := by
  have hquantize : ∀ cb : LloydMax K, FastLloydMaxCodebook.quantize (ι := Fin headDim) cb =
      LloydMaxCodebook.quantize cb := fun cb => funext (quantize_slow cb)
  rw [layerQuantizer, layerQuantizer, hquantize, hquantize]

end Slakshna.Codebook

import Mathlib.Algebra.BigOperators.Fin
import Mathlib.Analysis.Real.Sqrt
import Mathlib.LinearAlgebra.Matrix.Symmetric
import Slakshna.Lib.Bisect
import Slakshna.Inference.Codebook

/-! The two Triton kernels of the vLLM backend in exact arithmetic, where conversions between
floating-point types do nothing, and the torch path they stand in for. A pointer is a function of
the offset from it. -/
namespace Slakshna.TurboQuant
open Nearest Bisect Codebook

def Stored {X : Type} (ptr : ℤ → X) (xs : List X) : Prop :=
  ∀ (i : ℕ) (h : i < xs.length), ptr i = xs[i]

section Search
variable {K : Type} [LinearOrder K]

def searchStep (boundariesPtr : ℤ → K) (val : K) (s : Bracket) : Bracket :=
  let bnd := boundariesPtr s.mid
  { lo := if val > bnd then s.mid + 1 else s.lo
    hi := if val > bnd then s.hi else s.mid }

def search (boundariesPtr : ℤ → K) (nLevels : ℕ) (val : K) (k : ℕ) : Bracket :=
  (searchStep boundariesPtr val)^[k] ⟨0, nLevels - (2 : ℕ)⟩

theorem searchStep_eq (boundariesPtr : ℤ → K) (val : K) :
    searchStep boundariesPtr val = Bracket.narrow (fun i => boundariesPtr i < val) := by
  funext s
  by_cases hbelow : boundariesPtr s.mid < val
  · simp [searchStep, Bracket.narrow, hbelow]
  · simp [searchStep, Bracket.narrow, hbelow]

theorem search_encloses {boundariesPtr : ℤ → K} {boundaries : List K} {nLevels : ℕ}
    (hstored : Stored boundariesPtr boundaries) (hsorted : boundaries.Pairwise (· ≤ ·))
    (hlevels : nLevels = boundaries.length + 1) (hmin : 2 ≤ nLevels) (hmax : nLevels ≤ 256)
    (val : K) {k : ℕ} (hk : k ≤ 8) :
    Encloses boundaries.length (countBelow boundaries val) (2 ^ (8 - k))
      (search boundariesPtr nLevels val k) := by
  have hstart : (nLevels : ℤ) - (2 : ℕ) = boundaries.length - 1 := by omega
  have hle := countBelow_le boundaries val
  rw [search, searchStep_eq, hstart]
  apply encloses_iterate hk
  · omega
  · omega
  · exact_mod_cast hle
  · omega
  · intro i hzero hi
    lift i to ℕ using hzero
    have hlen : i < boundaries.length := by exact_mod_cast hi
    rw [hstored i hlen, getElem_lt_iff hsorted val i hlen]
    exact_mod_cast Iff.rfl

/-- Every iteration reads a boundary of the list, and after the eighth `lo` is what
`torch.bucketize` returns. -/
theorem search_bucketizes {boundariesPtr : ℤ → K} {boundaries : List K} {nLevels : ℕ}
    (hstored : Stored boundariesPtr boundaries) (hsorted : boundaries.Pairwise (· ≤ ·))
    (hlevels : nLevels = boundaries.length + 1) (hmin : 2 ≤ nLevels) (hmax : nLevels ≤ 256)
    (val : K) :
    (∀ k < 8, 0 ≤ (search boundariesPtr nLevels val k).mid ∧
        (search boundariesPtr nLevels val k).mid < boundaries.length) ∧
      (search boundariesPtr nLevels val 8).lo = countBelow boundaries val := by
  constructor
  · intro k hk
    exact (search_encloses hstored hsorted hlevels hmin hmax val hk.le).mid_mem
  · exact (search_encloses hstored hsorted hlevels hmin hmax val le_rfl).lo_eq

theorem search_bucketizes_tie :
    (∀ k < 8, 0 ≤ (search (fun i => if i = 0 then 0 else 1) 4 (1 : ℚ) k).mid ∧
        (search (fun i => if i = 0 then 0 else 1) 4 (1 : ℚ) k).mid <
          ([0, 1, 1] : List ℚ).length) ∧
      (search (fun i => if i = 0 then 0 else 1) 4 (1 : ℚ) 8).lo =
        countBelow ([0, 1, 1] : List ℚ) 1 := by
  apply search_bucketizes
  · intro i hi
    match i, hi with
    | 0, _ => rfl
    | 1, _ => rfl
    | 2, _ => rfl
  · decide
  · rfl
  · decide
  · decide

end Search

/-! The programs of a launch. Each has `BLOCK_N` rows, which it works through until the rows end. -/

def programRows (blockN N pid : ℕ) : List ℕ :=
  (List.range' (pid * blockN) blockN).takeWhile (· < N)

theorem takeWhile_range' (N a n : ℕ) :
    (List.range' a n).takeWhile (· < N) = List.range' a (min n (N - a)) := by
  induction n generalizing a with
  | zero => simp
  | succ n ih =>
    rw [List.range'_succ]
    by_cases ha : a < N
    · have hlen : min (n + 1) (N - a) = min n (N - (a + 1)) + 1 := by omega
      rw [List.takeWhile_cons_of_pos (by simpa using ha), ih, hlen, List.range'_succ]
    · have hlen : min (n + 1) (N - a) = 0 := by omega
      rw [List.takeWhile_cons_of_neg (by simpa using ha), hlen, List.range'_zero]

theorem flatMap_programRows (blockN N programs : ℕ) :
    (List.range programs).flatMap (programRows blockN N) =
      List.range (min N (programs * blockN)) := by
  induction programs with
  | zero => simp
  | succ programs ih =>
    rw [List.range_succ, List.flatMap_append, ih, List.flatMap_singleton, programRows,
      takeWhile_range', List.range_eq_range', List.range_eq_range', Nat.succ_mul]
    by_cases hrows : programs * blockN ≤ N
    · have hbefore : min N (programs * blockN) = programs * blockN := Nat.min_eq_right hrows
      have hafter : min N (programs * blockN + blockN) =
          programs * blockN + min blockN (N - programs * blockN) := by omega
      rw [hbefore, hafter, ← List.range'_append_1, Nat.zero_add]
    · have hnone : N - programs * blockN = 0 := by omega
      have hbefore : min N (programs * blockN) = N := by omega
      have hafter : min N (programs * blockN + blockN) = N := by omega
      rw [hnone, hbefore, hafter, Nat.min_zero, List.range'_zero, List.append_nil]

section Lanes
variable {K : Type} [Field K] {blockD : ℕ}

/-- `tl.load` at one offset for each lane, with the mask `tl.arange(0, BLOCK_D) < D`. -/
def load {X : Type} (ptr : ℤ → X) (offset : Fin blockD → ℤ) (D : ℕ) (other : X) :
    Fin blockD → X :=
  fun i => if i.val < D then ptr (offset i) else other

def accumulate (D : ℕ) (v : Fin blockD → K) (vectors : Fin blockD → Fin blockD → K) :
    Fin blockD → K :=
  (List.finRange blockD).foldl
    (fun y j => if j.val < D then fun i => y i + v j * vectors j i else y) 0

/-- The loop over `R_row` of `_rotate_quantize_kernel`. -/
def rotate (D : ℕ) (rPtr : ℤ → K) (xUnit : Fin blockD → K) : Fin blockD → K :=
  accumulate D xUnit (fun j => load rPtr (fun i => j.val * D + i.val) D 0)

/-- The loop over `R_col` of `_dequant_unrotate_kernel`. -/
def unrotate (D : ℕ) (rPtr : ℤ → K) (y : Fin blockD → K) : Fin blockD → K :=
  accumulate D y (fun j => load rPtr (fun i => i.val * D + j.val) D 0)

def matrixAt (D : ℕ) (rPtr : ℤ → K) : Matrix (Fin D) (Fin D) K :=
  fun i j => rPtr (i.val * D + j.val)

theorem foldl_lanes {X Y : Type} (p : X → Prop) [DecidablePred p] (f : X → Y → K) (xs : List X)
    (y : Y → K) (i : Y) :
    xs.foldl (fun y j => if p j then fun i => y i + f j i else y) y i =
      y i + (xs.map (fun j => if p j then f j i else 0)).sum := by
  induction xs generalizing y with
  | nil => simp
  | cons x xs ih =>
    rw [List.foldl_cons, ih, List.map_cons, List.sum_cons]
    by_cases hx : p x
    · rw [if_pos hx, if_pos hx, add_assoc]
    · rw [if_neg hx, if_neg hx, zero_add]

theorem accumulate_apply {D : ℕ} (hD : D ≤ blockD) (v : Fin blockD → K)
    (vectors : Fin blockD → Fin blockD → K) (i : Fin blockD) :
    accumulate D v vectors i = ∑ j : Fin D, v (j.castLE hD) * vectors (j.castLE hD) i := by
  rw [accumulate, foldl_lanes (fun j : Fin blockD => j.val < D) (fun j i => v j * vectors j i),
    ← Fin.sum_univ_def]
  obtain ⟨rest, rfl⟩ := Nat.exists_eq_add_of_le hD
  have hlane : ∀ j : Fin D, Fin.castLE hD j = Fin.castAdd rest j := fun _ => rfl
  rw [Fin.sum_univ_add]
  simp [hlane]

theorem rotate_eq {D : ℕ} (hD : D ≤ blockD) (rPtr : ℤ → K) (xUnit : Fin blockD → K)
    (i : Fin D) : rotate D rPtr xUnit (i.castLE hD) =
      Matrix.vecMul (fun j => xUnit (Fin.castLE hD j)) (matrixAt D rPtr) i := by
  rw [rotate, accumulate_apply hD]
  apply Finset.sum_congr rfl
  intro j _
  rw [load, if_pos (by simp)]
  rfl

theorem unrotate_eq {D : ℕ} (hD : D ≤ blockD) (rPtr : ℤ → K) (y : Fin blockD → K)
    (i : Fin D) : unrotate D rPtr y (i.castLE hD) =
      Matrix.vecMul (fun j => y (Fin.castLE hD j)) (matrixAt D rPtr).transpose i := by
  rw [unrotate, accumulate_apply hD]
  apply Finset.sum_congr rfl
  intro j _
  rw [load, if_pos (by simp)]
  rfl

end Lanes

section Kernels
variable {K : Type} [Field K] {blockD : ℕ}

def rowNorm (sqrt : K → K) (x : Fin blockD → K) : K := sqrt (∑ i, x i * x i + normMin)

/-- The normalised row that `_rotate_quantize_kernel` rotates. -/
def rowUnit (sqrt : K → K) (xPtr : ℤ → K) (D row : ℕ) : Fin blockD → K :=
  let x := load xPtr (fun i => row * D + i.val) D 0
  fun i => x i / rowNorm sqrt x

def dequantUnrotateRow (idxPtr : ℤ → Int16) (normPtr centroidsPtr rPtr : ℤ → K) (D row : ℕ) :
    Fin blockD → K :=
  let idx := load idxPtr (fun i : Fin blockD => row * D + i.val) D 0
  let y := fun j => centroidsPtr (idx j).toInt
  fun i => unrotate D rPtr y i * normPtr row

def dequantUnrotateKernel (idxPtr : ℤ → Int16) (normPtr centroidsPtr rPtr : ℤ → K) (N D : ℕ)
    (blockN pid : ℕ) : List (ℕ × (Fin blockD → K)) :=
  (programRows blockN N pid).map
    (fun row => (row, dequantUnrotateRow idxPtr normPtr centroidsPtr rPtr D row))

theorem launch_dequantUnrotate (idxPtr : ℤ → Int16) (normPtr centroidsPtr rPtr : ℤ → K)
    {N blockN programs : ℕ} (D : ℕ) (hprograms : N ≤ programs * blockN) :
    (List.range programs).flatMap (fun pid => (dequantUnrotateKernel idxPtr normPtr centroidsPtr
        rPtr N D blockN pid : List (ℕ × (Fin blockD → K)))) =
      (List.range N).map (fun row =>
        (row, dequantUnrotateRow idxPtr normPtr centroidsPtr rPtr D row)) := by
  simp only [dequantUnrotateKernel]
  rw [← List.map_flatMap, flatMap_programRows, Nat.min_eq_left hprograms]

variable [LinearOrder K]

def rotateQuantizeRow (sqrt : K → K) (xPtr rPtr boundariesPtr : ℤ → K) (D nLevels row : ℕ) :
    (Fin blockD → Int16) × K :=
  let y := rotate D rPtr (rowUnit sqrt xPtr D row : Fin blockD → K)
  (fun b => if b.val < D then (search boundariesPtr nLevels (y b) 8).lo.toInt16 else 0,
    rowNorm sqrt (load xPtr (fun i : Fin blockD => row * D + i.val) D 0))

def rotateQuantizeKernel (sqrt : K → K) (xPtr rPtr boundariesPtr : ℤ → K) (N D nLevels : ℕ)
    (blockN pid : ℕ) : List (ℕ × (Fin blockD → Int16) × K) :=
  (programRows blockN N pid).map
    (fun row => (row, rotateQuantizeRow sqrt xPtr rPtr boundariesPtr D nLevels row))

theorem launch_rotateQuantize (sqrt : K → K) (xPtr rPtr boundariesPtr : ℤ → K)
    {N blockN programs : ℕ} (D nLevels : ℕ) (hprograms : N ≤ programs * blockN) :
    (List.range programs).flatMap (fun pid => (rotateQuantizeKernel sqrt xPtr rPtr boundariesPtr
        N D nLevels blockN pid : List (ℕ × (Fin blockD → Int16) × K))) =
      (List.range N).map (fun row =>
        (row, rotateQuantizeRow sqrt xPtr rPtr boundariesPtr D nLevels row)) := by
  simp only [rotateQuantizeKernel]
  rw [← List.map_flatMap, flatMap_programRows, Nat.min_eq_left hprograms]

end Kernels

structure TQCompressor (K : Type) [LinearOrder K] (D : ℕ) where
  kCb : LloydMax K
  vCb : LloydMax K
  R : Matrix (Fin D) (Fin D) K

namespace TQCompressor
variable {K Half : Type} [Field K] [LinearOrder K] {D : ℕ}

def codebook (c : TQCompressor K D) (isKey : Bool) : LloydMax K :=
  if isKey then c.kCb else c.vCb

/-- `unit @ self._R.T` -/
def rotated (R : Matrix (Fin D) (Fin D) K) (unit : Fin D → K) : Fin D → K :=
  Matrix.vecMul unit R.transpose

def unrotated (R : Matrix (Fin D) (Fin D) K) (y : Fin D → K) (norm : K) : Fin D → K :=
  fun i => Matrix.vecMul y R i * norm

def compress (c : TQCompressor K D) (torch : Torch K Half D) (isKey : Bool) (kv : Fin D → K) :
    (Fin D → Int16) × Half :=
  let norms := max (torch.norm kv) normMin
  let unit := fun i => kv i / norms
  (FastLloydMaxCodebook.quantize (c.codebook isKey) (rotated c.R unit), torch.toHalf norms)

def reconstructed (c : TQCompressor K D) (torch : Torch K Half D) (isKey : Bool)
    (e : (Fin D → Int16) × Half) : Fin D → K :=
  unrotated c.R (fun j => (dequantize? (c.codebook isKey) (e.1 j)).getD 0) (torch.float e.2)

def decompress (c : TQCompressor K D) (torch : Torch K Half D) (isKey : Bool)
    (e : (Fin D → Int16) × Half) : Fin D → K :=
  fun i => torch.toDtype (c.reconstructed torch isKey e i)

def quantizer (c : TQCompressor K D) (torch : Torch K Half D) (zero : Half) :
    KVCache.Quantizer (Fin D → K) ((Fin D → Int16) × Half) where
  encodeKey := c.compress torch true
  encodeValue := c.compress torch false
  decodeKey := c.decompress torch true
  decodeValue := c.decompress torch false
  zero := (0, zero)

end TQCompressor

section Agreement
variable {K : Type} [Field K] {blockD D : ℕ}

theorem rotate_transposed (hD : D ≤ blockD) (rPtr : ℤ → K) (xUnit : Fin blockD → K)
    (i : Fin D) : rotate D rPtr xUnit (i.castLE hD) =
      TQCompressor.rotated (matrixAt D rPtr).transpose (fun j => xUnit (j.castLE hD)) i := by
  rw [TQCompressor.rotated, Matrix.transpose_transpose, rotate_eq hD]

theorem dequantUnrotateRow_transposed (hD : D ≤ blockD) (idxPtr : ℤ → Int16)
    (normPtr centroidsPtr rPtr : ℤ → K) (row : ℕ) (i : Fin D) :
    (dequantUnrotateRow idxPtr normPtr centroidsPtr rPtr D row : Fin blockD → K)
        (i.castLE hD) =
      TQCompressor.unrotated (matrixAt D rPtr).transpose
        (fun j => centroidsPtr (idxPtr (row * D + j.val)).toInt) (normPtr row) i := by
  rw [TQCompressor.unrotated, dequantUnrotateRow]
  dsimp only
  rw [unrotate_eq hD]
  simp [load]

theorem rotateQuantizeRow_indices [LinearOrder K] [IsStrictOrderedRing K] (hD : D ≤ blockD) (sqrt : K → K)
    (xPtr rPtr boundariesPtr : ℤ → K) (cb : LloydMax K)
    (hstored : Stored boundariesPtr cb.boundaries) (hmin : 2 ≤ cb.centroids.length)
    (hmax : cb.centroids.length ≤ 256) (row : ℕ) (i : Fin D) :
    (rotateQuantizeRow sqrt xPtr rPtr boundariesPtr D cb.centroids.length row :
        (Fin blockD → Int16) × K).1 (i.castLE hD) =
      FastLloydMaxCodebook.quantize cb (TQCompressor.rotated (matrixAt D rPtr).transpose
        (fun j => rowUnit sqrt xPtr D row (j.castLE hD))) i := by
  have hlevels : cb.centroids.length = cb.boundaries.length + 1 := by
    rw [LloydMax.boundaries, length_midpoints]
    omega
  have hsorted : cb.boundaries.Pairwise (· ≤ ·) :=
    (midpoints_increasing cb.increasing).imp le_of_lt
  have hlo := fun val => (search_encloses hstored hsorted hlevels hmin hmax val le_rfl).lo_eq
  rw [rotateQuantizeRow]
  simp only [Fin.val_castLE, i.isLt, if_true]
  rw [hlo, rotate_transposed hD]
  rfl

theorem rowNorm_pos [LinearOrder K] [IsStrictOrderedRing K] {sqrt : K → K}
    (hsqrt : ∀ a, 0 < a → 0 < sqrt a) (x : Fin blockD → K) : 0 < rowNorm sqrt x := by
  apply hsqrt
  have hsquares : 0 ≤ ∑ i, x i * x i := Finset.sum_nonneg (fun i _ => mul_self_nonneg (x i))
  have hmin : (0 : K) < normMin := by
    rw [normMin]
    positivity
  exact add_pos_of_nonneg_of_pos hsquares hmin

theorem single_of_lane (k : Fin D) (c : K) :
    (fun j : Fin D => if (j.val : ℤ) = k.val then c else 0) = Pi.single k c := by
  funext j
  by_cases hj : j = k
  · subst hj
    simp
  · have hne : j.val ≠ k.val := fun heq => hj (Fin.ext heq)
    simp [hj, hne]

theorem rotate_agrees_iff [LinearOrder K] [IsStrictOrderedRing K] {sqrt : K → K}
    (hsqrt : ∀ a, 0 < a → 0 < sqrt a) (hD : D ≤ blockD) (rPtr : ℤ → K) :
    (∀ (xPtr : ℤ → K) (row : ℕ) (i : Fin D),
        rotate D rPtr (rowUnit sqrt xPtr D row) (i.castLE hD) =
          TQCompressor.rotated (matrixAt D rPtr)
            (fun j => rowUnit sqrt xPtr D row (j.castLE hD)) i) ↔
      (matrixAt D rPtr).IsSymm := by
  constructor
  · intro h
    apply Matrix.IsSymm.ext
    intro i k
    -- the row with a single entry at `k` picks out row and column `k`
    let xPtr : ℤ → K := fun a => if a = k.val then 1 else 0
    let norm := rowNorm sqrt (load xPtr (fun i : Fin blockD => (0 : ℕ) * D + i.val) D 0)
    have hnorm : norm ≠ 0 := (rowNorm_pos hsqrt _).ne'
    have hunit : (fun j : Fin D => rowUnit sqrt xPtr D 0 (j.castLE hD)) =
        Pi.single k (1 / norm) := by
      rw [← single_of_lane k]
      funext j
      simp [rowUnit, load, xPtr, norm, ite_div]
    have hrow := h xPtr 0 i
    rw [rotate_transposed hD, hunit, TQCompressor.rotated, TQCompressor.rotated,
      Matrix.single_vecMul, Matrix.single_vecMul] at hrow
    simpa [hnorm] using hrow
  · intro hsymm xPtr row i
    rw [rotate_transposed hD, hsymm.eq]

theorem unrotate_agrees_iff (hD : D ≤ blockD) (rPtr : ℤ → K) :
    (∀ (idxPtr : ℤ → Int16) (normPtr centroidsPtr : ℤ → K) (row : ℕ) (i : Fin D),
        (dequantUnrotateRow idxPtr normPtr centroidsPtr rPtr D row : Fin blockD → K)
            (i.castLE hD) =
          TQCompressor.unrotated (matrixAt D rPtr)
            (fun j => centroidsPtr (idxPtr (row * D + j.val)).toInt) (normPtr row) i) ↔
      (matrixAt D rPtr).IsSymm := by
  constructor
  · intro h
    apply Matrix.IsSymm.ext
    intro i k
    -- two centroids are enough: the index 1 at `k` and 0 elsewhere
    let idxPtr : ℤ → Int16 := fun a => if a = k.val then 1 else 0
    let centroidsPtr : ℤ → K := fun a => if a = 1 then 1 else 0
    have hunit : (fun j : Fin D => centroidsPtr (idxPtr ((0 : ℕ) * D + j.val)).toInt) =
        Pi.single k 1 := by
      rw [← single_of_lane k]
      funext j
      by_cases hj : (j.val : ℤ) = k.val
      · simp [centroidsPtr, idxPtr, hj]
      · simp [centroidsPtr, idxPtr, hj]
    have hrow := h idxPtr (fun _ => 1) centroidsPtr 0 i
    rw [dequantUnrotateRow_transposed hD, hunit, TQCompressor.unrotated, TQCompressor.unrotated,
      Matrix.single_vecMul, Matrix.single_vecMul] at hrow
    simpa using hrow.symm
  · intro hsymm idxPtr normPtr centroidsPtr row i
    rw [dequantUnrotateRow_transposed hD, hsymm.eq]

/-- Each kernel computes what the torch path computes, on every input, exactly if the matrix is
symmetric. -/
theorem kernels_agree_iff [LinearOrder K] [IsStrictOrderedRing K] {sqrt : K → K}
    (hsqrt : ∀ a, 0 < a → 0 < sqrt a) (hD : D ≤ blockD) (rPtr : ℤ → K) :
    ((∀ (xPtr : ℤ → K) (row : ℕ) (i : Fin D),
        rotate D rPtr (rowUnit sqrt xPtr D row) (i.castLE hD) =
          TQCompressor.rotated (matrixAt D rPtr)
            (fun j => rowUnit sqrt xPtr D row (j.castLE hD)) i) ↔
      (matrixAt D rPtr).IsSymm) ∧
    ((∀ (idxPtr : ℤ → Int16) (normPtr centroidsPtr : ℤ → K) (row : ℕ) (i : Fin D),
        (dequantUnrotateRow idxPtr normPtr centroidsPtr rPtr D row : Fin blockD → K)
            (i.castLE hD) =
          TQCompressor.unrotated (matrixAt D rPtr)
            (fun j => centroidsPtr (idxPtr (row * D + j.val)).toInt) (normPtr row) i) ↔
      (matrixAt D rPtr).IsSymm) :=
  ⟨rotate_agrees_iff hsqrt hD rPtr, unrotate_agrees_iff hD rPtr⟩

theorem unrotate_rotate (hD : D ≤ blockD) (rPtr : ℤ → K)
    (horthogonal : matrixAt D rPtr * (matrixAt D rPtr).transpose = 1) (x : Fin blockD → K)
    (i : Fin D) : unrotate D rPtr (rotate D rPtr x) (i.castLE hD) = x (i.castLE hD) := by
  have hrotated : (fun j : Fin D => rotate D rPtr x (j.castLE hD)) =
      Matrix.vecMul (fun j => x (Fin.castLE hD j)) (matrixAt D rPtr) :=
    funext (rotate_eq hD rPtr x)
  rw [unrotate_eq hD, hrotated, Matrix.vecMul_vecMul, horthogonal, Matrix.vecMul_one]

end Agreement

def quarterTurn {K : Type} [Field K] : ℤ → K := fun a => if a = 1 then -1 else if a = 2 then 1 else 0

theorem kernels_agree_iff_quarterTurn :
    ((∀ (xPtr : ℤ → ℝ) (row : ℕ) (i : Fin 2),
        rotate 2 quarterTurn (rowUnit Real.sqrt xPtr 2 row : Fin 4 → ℝ)
            (i.castLE (by decide)) =
          TQCompressor.rotated (matrixAt 2 quarterTurn)
            (fun j => (rowUnit Real.sqrt xPtr 2 row : Fin 4 → ℝ) (j.castLE (by decide))) i) ↔
      (matrixAt 2 (quarterTurn : ℤ → ℝ)).IsSymm) ∧
    ((∀ (idxPtr : ℤ → Int16) (normPtr centroidsPtr : ℤ → ℝ) (row : ℕ) (i : Fin 2),
        (dequantUnrotateRow idxPtr normPtr centroidsPtr quarterTurn 2 row : Fin 4 → ℝ)
            (i.castLE (by decide)) =
          TQCompressor.unrotated (matrixAt 2 quarterTurn)
            (fun j => centroidsPtr (idxPtr (row * 2 + j.val)).toInt) (normPtr row) i) ↔
      (matrixAt 2 (quarterTurn : ℤ → ℝ)).IsSymm) :=
  kernels_agree_iff (fun _ ha => Real.sqrt_pos.2 ha) (by decide) quarterTurn

/-- A row (3/40000, 0), whose norm is 1/8000, and a code with the centroids 1 and 0. -/
theorem quarterTurn_disagrees :
    (matrixAt 2 (quarterTurn : ℤ → ℚ) * (matrixAt 2 quarterTurn).transpose = 1 ∧
      (1 / 8000 : ℚ) * (1 / 8000) = 3 / 40000 * (3 / 40000) + normMin) ∧
    (rotate 2 quarterTurn (rowUnit (fun _ => 1 / 8000) (fun a => if a = 0 then 3 / 40000 else 0) 2 0 :
        Fin 4 → ℚ) 1 = -3 / 5 ∧
      TQCompressor.rotated (matrixAt 2 quarterTurn) (fun j => (rowUnit (fun _ => 1 / 8000)
        (fun a => if a = 0 then 3 / 40000 else 0) 2 0 : Fin 4 → ℚ) (j.castLE (by decide))) 1 =
        3 / 5) ∧
    (dequantUnrotateRow (fun a => if a = 0 then 1 else 0) (fun _ => 1)
        (fun a => if a = 1 then 1 else 0) quarterTurn 2 0 : Fin 4 → ℚ) 1 = 1 ∧
      TQCompressor.unrotated (matrixAt 2 quarterTurn) ![1, 0] (1 : ℚ) 1 = -1 := by
  refine ⟨⟨?_, ?_⟩, ⟨?_, ?_⟩, ?_, ?_⟩ <;> decide +kernel

end Slakshna.TurboQuant

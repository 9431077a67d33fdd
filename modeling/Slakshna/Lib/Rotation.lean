import Mathlib.Analysis.InnerProductSpace.PiL2
import Mathlib.LinearAlgebra.Matrix.NonsingularInverse
import Slakshna.Lib.TopK

/-! Rotations of finite vectors. They keep squared distances, so what is near entry by entry after a
rotation is near before it. -/
namespace Slakshna.Rotation
open TopK
variable {ι K : Type*} [Fintype ι] [DecidableEq ι] [Field K]

def IsRotation (R : Matrix ι ι K) : Prop := R * R.transpose = 1

variable {R : Matrix ι ι K}

theorem IsRotation.transpose_mul (h : IsRotation R) : R.transpose * R = 1 := mul_eq_one_comm.1 h

theorem IsRotation.vecMul_mulVec (h : IsRotation R) (x : ι → K) :
    Matrix.vecMul (R.mulVec x) R = x := by
  rw [← Matrix.vecMul_transpose, Matrix.vecMul_vecMul, h.transpose_mul, Matrix.vecMul_one]

theorem IsRotation.dotProduct_vecMul (h : IsRotation R) (a b : ι → K) :
    Matrix.vecMul a R ⬝ᵥ Matrix.vecMul b R = a ⬝ᵥ b := by
  rw [← Matrix.mulVec_transpose R b, Matrix.dotProduct_mulVec, Matrix.vecMul_vecMul, h,
    Matrix.vecMul_one]

omit [DecidableEq ι] in
theorem sqDist_eq_dotProduct (u v : ι → K) : sqDist u v = (u - v) ⬝ᵥ (u - v) := by
  simp only [sqDist, dotProduct, Pi.sub_apply, pow_two]

theorem IsRotation.sqDist_vecMul (h : IsRotation R) (a b : ι → K) :
    sqDist (Matrix.vecMul a R) (Matrix.vecMul b R) = sqDist a b := by
  rw [sqDist_eq_dotProduct, ← Matrix.sub_vecMul, h.dotProduct_vecMul, ← sqDist_eq_dotProduct]

theorem IsRotation.sqDist_back (h : IsRotation R) (y x : ι → K) :
    sqDist (Matrix.vecMul y R) x = sqDist y (R.mulVec x) := by
  have hdist := h.sqDist_vecMul y (R.mulVec x)
  rwa [h.vecMul_mulVec] at hdist

theorem IsRotation.sum_sq_mulVec (h : IsRotation R) (x : ι → K) :
    ∑ i, R.mulVec x i ^ 2 = ∑ i, x i ^ 2 := by
  have hzero := h.sqDist_back 0 x
  simpa [sqDist] using hzero.symm

variable [LinearOrder K] [IsStrictOrderedRing K]

theorem IsRotation.abs_mulVec_le (h : IsRotation R) {x : ι → K} {c : K} (hc : 0 ≤ c)
    (hlength : c ^ 2 = ∑ i, x i ^ 2) (i : ι) : |R.mulVec x i| ≤ c := by
  apply abs_le_of_sq_le_sq _ hc
  rw [hlength, ← h.sum_sq_mulVec x]
  exact Finset.single_le_sum (fun j _ => sq_nonneg (R.mulVec x j)) (Finset.mem_univ i)

omit [DecidableEq ι] in
theorem sqDist_le_of_abs_le {u v : ι → K} {c : K} (h : ∀ i, |u i - v i| ≤ c) :
    sqDist u v ≤ Fintype.card ι * c ^ 2 := by
  calc sqDist u v ≤ ∑ _i : ι, c ^ 2 := by
        apply Finset.sum_le_sum
        intro i _
        have hi := h i
        exact sq_le_sq' (by linarith [neg_abs_le (u i - v i)]) ((le_abs_self _).trans hi)
    _ = Fintype.card ι * c ^ 2 := by rw [Finset.sum_const, Finset.card_univ, nsmul_eq_mul]

omit [DecidableEq ι] in
theorem sqDist_mono {u u' v : ι → K} (h : ∀ i, |u i - v i| ≤ |u' i - v i|) :
    sqDist u v ≤ sqDist u' v :=
  Finset.sum_le_sum (fun i _ => sq_le_sq.2 (h i))

section Distance
variable {ι : Type*} [Fintype ι]

noncomputable def eDist (u v : ι → ℝ) : ℝ := √(sqDist u v)

theorem eDist_eq_dist (u v : ι → ℝ) : eDist u v = dist (WithLp.toLp 2 u) (WithLp.toLp 2 v) := by
  rw [EuclideanSpace.dist_eq, eDist, sqDist]
  simp [Real.dist_eq]

theorem eDist_comm (u v : ι → ℝ) : eDist u v = eDist v u := by
  rw [eDist_eq_dist, eDist_eq_dist, dist_comm]

theorem eDist_triangle (u v w : ι → ℝ) : eDist u w ≤ eDist u v + eDist v w := by
  rw [eDist_eq_dist, eDist_eq_dist, eDist_eq_dist]
  exact dist_triangle _ _ _

theorem eDist_le {u u' v : ι → ℝ} (h : sqDist u v ≤ sqDist u' v) : eDist u v ≤ eDist u' v :=
  Real.sqrt_le_sqrt h

end Distance

end Slakshna.Rotation

import Mathlib.Analysis.Real.Sqrt
import Slakshna.Lib.Cells
import Slakshna.Inference.Codebook

/-! `solve_lloyd_max` in exact arithmetic, for any weight in place of the pdf and any of its
integrators. -/
namespace Slakshna.LloydMaxSolver
open Nearest Cells

section Solver
variable {K : Type} [Field K] [LinearOrder K]

def midpointSum (n : ℕ) (fn : K → K) (a b : K) : K :=
  let dx := (b - a) / n
  ∑ i ∈ Finset.range n, fn (a + (i + 1 / (2 : ℕ)) * dx) * dx

def riemannSum : (K → K) → K → K → K := midpointSum 1000

def newCentroid (integrate : (K → K) → K → K → K) (pdf : K → K) (a b centroid : K) : K :=
  let num := integrate (fun x => x * pdf x) a b
  let den := integrate pdf a b
  if den > 1 / (10 ^ 15 : ℕ) then num / den else centroid

def edges (lo hi : K) (centroids : List K) : List K :=
  (lo * (2 : ℕ)) :: (midpoints centroids ++ [hi * (2 : ℕ)])

def newCentroids (integrate : (K → K) → K → K → K) (pdf : K → K) (lo hi : K)
    (centroids : List K) : List K :=
  refit (newCentroid integrate pdf) (edges lo hi centroids) centroids

def maxShift (new old : List K) : K := (List.zipWith (fun n o => |n - o|) new old).foldl max 0

def iterations (integrate : (K → K) → K → K → K) (pdf : K → K) (lo hi tol : K) :
    ℕ → List K → List (List K)
  | 0, _ => []
  | maxIter + 1, centroids =>
    let new := newCentroids integrate pdf lo hi centroids
    if maxShift new centroids < tol then [new]
    else new :: iterations integrate pdf lo hi tol maxIter new

def upper (sqrt : K → K) (d : ℕ) : K := (4 : ℕ) * sqrt (1 / d)

def startCentroids (lo hi : K) (nLevels : ℕ) : List K :=
  (List.range nLevels).map (fun i : ℕ => lo + (hi - lo) * (i + 1 / (2 : ℕ)) / nLevels)

def solveIterations (sqrt : K → K) (integrate : (K → K) → K → K → K) (pdf : K → K) (d bits : ℕ)
    (maxIter : ℤ) (tol : K) : List (List K) :=
  let hi := upper sqrt d
  let lo := -hi
  iterations integrate pdf lo hi tol maxIter.toNat (startCentroids lo hi (2 ^ bits))

def solveLloydMax (sqrt : K → K) (integrate : (K → K) → K → K → K) (pdf : K → K) (d bits : ℕ)
    (maxIter : ℤ) (tol : K) : List K × List K :=
  let hi := upper sqrt d
  let lo := -hi
  let centroids := (solveIterations sqrt integrate pdf d bits maxIter tol).getLastD
    (startCentroids lo hi (2 ^ bits))
  (centroids, midpoints centroids)

end Solver

section Order
variable {K : Type} [Field K] [LinearOrder K] [IsStrictOrderedRing K]

def MeanInside (integrate : (K → K) → K → K → K) (pdf : K → K) : Prop :=
  ∀ a b, a < b → 0 < integrate pdf a b →
    a * integrate pdf a b < integrate (fun x => x * pdf x) a b ∧
      integrate (fun x => x * pdf x) a b < b * integrate pdf a b

theorem middle_inside {n i : ℕ} (hi : i < n) :
    (0 : K) < i + 1 / (2 : ℕ) ∧ (i : K) + 1 / (2 : ℕ) < n := by
  have hlast : (i : K) + 1 ≤ n := by exact_mod_cast hi
  have hhalf : (1 : K) / (2 : ℕ) < 1 := by norm_num
  constructor
  · positivity
  · linarith

theorem midpointSum_mean {n : ℕ} (hn : 0 < n) {pdf : K → K} (hpdf : ∀ x, 0 ≤ pdf x) :
    MeanInside (midpointSum n) pdf := by
  intro a b hab hpos
  have hn' : (0 : K) < n := Nat.cast_pos.2 hn
  have hdx : 0 < (b - a) / n := div_pos (sub_pos.2 hab) hn'
  have hspan : n * ((b - a) / n) = b - a := mul_div_cancel₀ (b - a) hn'.ne'
  let place : ℕ → K := fun i => a + (i + 1 / (2 : ℕ)) * ((b - a) / n)
  have hplace : ∀ i ∈ Finset.range n, a < place i ∧ place i < b := by
    intro i hi
    obtain ⟨hstart, hend⟩ := middle_inside (K := K) (Finset.mem_range.1 hi)
    have hbefore := mul_pos hstart hdx
    have hbehind := mul_lt_mul_of_pos_right hend hdx
    rw [hspan] at hbehind
    constructor
    · simp only [place]
      linarith
    · simp only [place]
      linarith
  have hnum : midpointSum n (fun x => x * pdf x) a b =
      ∑ i ∈ Finset.range n, place i * (pdf (place i) * ((b - a) / n)) := by
    rw [midpointSum]
    apply Finset.sum_congr rfl
    intro i _
    exact mul_assoc ..
  rw [hnum]
  exact mean_inside (fun i _ => mul_nonneg (hpdf (place i)) hdx.le) hplace hpos

structure Placed (lo hi : K) (nLevels : ℕ) (centroids : List K) : Prop where
  length : centroids.length = nLevels
  increasing : centroids.Pairwise (· < ·)
  inside : ∀ c ∈ centroids, lo * (2 : ℕ) < c ∧ c < hi * (2 : ℕ)

theorem Placed.interlaced {lo hi : K} {nLevels : ℕ} {centroids : List K}
    (h : Placed lo hi nLevels centroids) (hn : 0 < nLevels) :
    Interlaced (edges lo hi centroids) centroids := by
  apply interlaced_midpoints _ h.increasing h.inside
  rintro rfl
  exact absurd h.length hn.ne

theorem placed_start {hi : K} (hhi : 0 < hi) (nLevels : ℕ) :
    Placed (-hi) hi nLevels (startCentroids (-hi) hi nLevels) := by
  have hspan : 0 < hi - -hi := by linarith
  refine ⟨?_, ?_, ?_⟩
  · rw [startCentroids, List.length_map, List.length_range]
  · rw [startCentroids, List.pairwise_map]
    apply List.Pairwise.imp_of_mem _ List.pairwise_lt_range
    intro i j himem _ hij
    have hn : (0 : K) < nLevels := Nat.cast_pos.2 (Nat.zero_lt_of_lt (List.mem_range.1 himem))
    have hcast : (i : K) < j := Nat.cast_lt.2 hij
    have hscaled := mul_lt_mul_of_pos_left (add_lt_add_left hcast (1 / (2 : ℕ))) hspan
    have hparts := div_lt_div_of_pos_right hscaled hn
    exact add_lt_add_right hparts (-hi)
  · intro c hc
    obtain ⟨i, himem, rfl⟩ := List.mem_map.1 hc
    have hn : (0 : K) < nLevels := Nat.cast_pos.2 (Nat.zero_lt_of_lt (List.mem_range.1 himem))
    obtain ⟨hstart, hend⟩ := middle_inside (K := K) (List.mem_range.1 himem)
    have hpos : 0 < (hi - -hi) * (i + 1 / (2 : ℕ)) / nLevels := div_pos (mul_pos hspan hstart) hn
    have hless : (hi - -hi) * (i + 1 / (2 : ℕ)) / nLevels < hi - -hi := by
      rw [div_lt_iff₀ hn]
      exact mul_lt_mul_of_pos_left hend hspan
    push_cast at hpos hless ⊢
    constructor
    · linarith
    · linarith

theorem newCentroid_inside {integrate : (K → K) → K → K → K} {pdf : K → K}
    (hmean : MeanInside integrate pdf) (a b c : K) (hac : a < c) (hcb : c < b) :
    a < newCentroid integrate pdf a b c ∧ newCentroid integrate pdf a b c < b := by
  rw [newCentroid]
  by_cases hden : integrate pdf a b > 1 / (10 ^ 15 : ℕ)
  · have hpos : 0 < integrate pdf a b := lt_trans (by positivity) hden
    obtain ⟨hbefore, hbehind⟩ := hmean a b (hac.trans hcb) hpos
    rw [if_pos hden, lt_div_iff₀ hpos, div_lt_iff₀ hpos]
    exact ⟨hbefore, hbehind⟩
  · rw [if_neg hden]
    exact ⟨hac, hcb⟩

theorem Placed.newCentroids {integrate : (K → K) → K → K → K} {pdf : K → K}
    (hmean : MeanInside integrate pdf) {lo hi : K} {nLevels : ℕ} (hn : 0 < nLevels)
    {centroids : List K} (h : Placed lo hi nLevels centroids) :
    Placed lo hi nLevels (newCentroids integrate pdf lo hi centroids) := by
  have hold := h.interlaced hn
  have hnew := hold.refit (newCentroid_inside hmean)
  refine ⟨?_, hnew.increasing, ?_⟩
  · rw [LloydMaxSolver.newCentroids, length_refit hold, h.length]
  · intro c hc
    exact ⟨hnew.lt c hc, hnew.lt_last c hc⟩

theorem Placed.iterations {integrate : (K → K) → K → K → K} {pdf : K → K}
    (hmean : MeanInside integrate pdf) {lo hi : K} {nLevels : ℕ} (hn : 0 < nLevels) (tol : K)
    (maxIter : ℕ) {centroids : List K} (h : Placed lo hi nLevels centroids) :
    ∀ cs ∈ iterations integrate pdf lo hi tol maxIter centroids, Placed lo hi nLevels cs := by
  induction maxIter generalizing centroids with
  | zero => simp [LloydMaxSolver.iterations]
  | succ maxIter ih =>
    have hnew := h.newCentroids hmean hn
    intro cs hcs
    rw [LloydMaxSolver.iterations] at hcs
    split at hcs
    · rw [List.mem_singleton.1 hcs]
      exact hnew
    · cases List.mem_cons.1 hcs with
      | inl heq => exact heq ▸ hnew
      | inr hrest => exact ih hnew cs hrest

section Result
variable {sqrt : K → K} {integrate : (K → K) → K → K → K} {pdf : K → K} {d : ℕ}

theorem upper_pos (hsqrt : ∀ a, 0 < a → 0 < sqrt a) (hd : 1 ≤ d) : 0 < upper sqrt d := by
  have hvariance : (0 : K) < 1 / d := one_div_pos.2 (Nat.cast_pos.2 hd)
  exact mul_pos (Nat.cast_pos.2 (by decide)) (hsqrt _ hvariance)

theorem solveIterations_placed (hsqrt : ∀ a, 0 < a → 0 < sqrt a)
    (hmean : MeanInside integrate pdf) (hd : 1 ≤ d) (bits : ℕ) (maxIter : ℤ) (tol : K) :
    ∀ cs ∈ solveIterations sqrt integrate pdf d bits maxIter tol,
      Placed (-upper sqrt d) (upper sqrt d) (2 ^ bits) cs :=
  (placed_start (upper_pos hsqrt hd) _).iterations hmean (Nat.two_pow_pos bits) tol _

theorem solve_placed (hsqrt : ∀ a, 0 < a → 0 < sqrt a) (hmean : MeanInside integrate pdf)
    (hd : 1 ≤ d) (bits : ℕ) (maxIter : ℤ) (tol : K) :
    Placed (-upper sqrt d) (upper sqrt d) (2 ^ bits)
      (solveLloydMax sqrt integrate pdf d bits maxIter tol).1 := by
  have hall := solveIterations_placed hsqrt hmean hd bits maxIter tol
  rw [solveLloydMax]
  dsimp only
  cases hlast : (solveIterations sqrt integrate pdf d bits maxIter tol).getLast? with
  | none =>
    rw [List.getLastD_eq_getLast?, hlast]
    exact placed_start (upper_pos hsqrt hd) _
  | some cs =>
    rw [List.getLastD_eq_getLast?, hlast]
    exact hall cs (List.mem_of_getLast? hlast)

def codebook (hsqrt : ∀ a, 0 < a → 0 < sqrt a) (hmean : MeanInside integrate pdf) (hd : 1 ≤ d)
    (bits : ℕ) (maxIter : ℤ) (tol : K) : Codebook.LloydMax K where
  centroids := (solveLloydMax sqrt integrate pdf d bits maxIter tol).1
  nonempty := by
    apply List.ne_nil_of_length_pos
    rw [(solve_placed hsqrt hmean hd bits maxIter tol).length]
    exact Nat.two_pow_pos bits
  increasing := (solve_placed hsqrt hmean hd bits maxIter tol).increasing

/-- After every iteration the centroids increase and lie between `2 * lo` and `2 * hi`; the
boundaries that are returned increase, and each separates two neighbouring centroids. -/
theorem solveLloydMax_ordered (hsqrt : ∀ a, 0 < a → 0 < sqrt a)
    (hintegrate : integrate = riemannSum ∧ (∀ x, 0 ≤ pdf x) ∨ MeanInside integrate pdf)
    (hd : 1 ≤ d) (bits : ℕ) (maxIter : ℤ) (tol : K) :
    (∀ cs ∈ solveIterations sqrt integrate pdf d bits maxIter tol, cs.Pairwise (· < ·) ∧
      ∀ c ∈ cs, -upper sqrt d * (2 : ℕ) < c ∧ c < upper sqrt d * (2 : ℕ)) ∧
    (solveLloydMax sqrt integrate pdf d bits maxIter tol).2.Pairwise (· < ·) ∧
    ∀ i c c', (solveLloydMax sqrt integrate pdf d bits maxIter tol).1[i]? = some c →
      (solveLloydMax sqrt integrate pdf d bits maxIter tol).1[i + 1]? = some c' →
      ∃ b, (solveLloydMax sqrt integrate pdf d bits maxIter tol).2[i]? = some b ∧
        c < b ∧ b < c' := by
  have hmean : MeanInside integrate pdf := by
    cases hintegrate with
    | inl hsum => exact hsum.1 ▸ midpointSum_mean (by decide) hsum.2
    | inr hmean => exact hmean
  have hresult := solve_placed hsqrt hmean hd bits maxIter tol
  refine ⟨?_, midpoints_increasing hresult.increasing, ?_⟩
  · intro cs hcs
    have hplaced := solveIterations_placed hsqrt hmean hd bits maxIter tol cs hcs
    exact ⟨hplaced.increasing, hplaced.inside⟩
  · intro i c c' hc hc'
    exact midpoints_separate hresult.increasing hc hc'

end Result

end Order

theorem solveLloydMax_ordered_uniform :
    (∀ cs ∈ solveIterations Real.sqrt riemannSum (fun _ => 1) 64 3 300 (1 / (10 ^ 12 : ℕ)),
      cs.Pairwise (· < ·) ∧
      ∀ c ∈ cs, -upper Real.sqrt 64 * (2 : ℕ) < c ∧ c < upper Real.sqrt 64 * (2 : ℕ)) ∧
    (solveLloydMax Real.sqrt riemannSum (fun _ => 1) 64 3 300
      (1 / (10 ^ 12 : ℕ))).2.Pairwise (· < ·) ∧
    ∀ i c c', (solveLloydMax Real.sqrt riemannSum (fun _ => 1) 64 3 300
        (1 / (10 ^ 12 : ℕ))).1[i]? = some c →
      (solveLloydMax Real.sqrt riemannSum (fun _ => 1) 64 3 300
        (1 / (10 ^ 12 : ℕ))).1[i + 1]? = some c' →
      ∃ b, (solveLloydMax Real.sqrt riemannSum (fun _ => 1) 64 3 300
        (1 / (10 ^ 12 : ℕ))).2[i]? = some b ∧ c < b ∧ b < c' :=
  solveLloydMax_ordered (fun _ ha => Real.sqrt_pos.2 ha)
    (Or.inl ⟨rfl, fun _ => zero_le_one⟩) (by decide) 3 300 _

end Slakshna.LloydMaxSolver

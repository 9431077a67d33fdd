import Mathlib.Probability.ProbabilityMassFunction.Constructions
import Mathlib.MeasureTheory.Measure.Lebesgue.Basic
import Slakshna.Lib.Rejection

/-! Programs that draw and may fail, as laws of what they return, and the rules for the expected value
of a function of it. A failure counts for nothing. -/
namespace Slakshna.Chance
open MeasureTheory Rejection
open scoped ENNReal
variable {ε X Y V : Type}

def worth (g : X → ℝ≥0∞) : Except ε X → ℝ≥0∞
  | .ok x => g x
  | .error _ => 0

noncomputable def expected (x : ExceptT ε PMF X) (g : X → ℝ≥0∞) : ℝ≥0∞ :=
  tsum (fun r => x.run r * worth g r)

noncomputable def chance (x : ExceptT ε PMF X) (E : X → Prop) : ℝ≥0∞ :=
  x.run.toOuterMeasure {r | ∃ a, r = .ok a ∧ E a}

open Classical in
noncomputable def holds (A : Prop) : ℝ≥0∞ := if A then 1 else 0

theorem holds_true {A : Prop} (h : A) : holds A = 1 := if_pos h

theorem holds_false {A : Prop} (h : ¬A) : holds A = 0 := if_neg h

theorem sum_mul_holds [Fintype V] (f : V → ℝ≥0∞) (v : V) : ∑ u, f u * holds (v = u) = f v := by
  rw [Finset.sum_eq_single v, holds_true rfl, mul_one]
  · intro u _ hu
    rw [holds_false (Ne.symm hu), mul_zero]
  · intro hv
    exact absurd (Finset.mem_univ v) hv

theorem chance_eq (x : ExceptT ε PMF X) (E : X → Prop) :
    chance x E = expected x (fun a => holds (E a)) := by
  rw [chance, PMF.toOuterMeasure_apply]
  apply tsum_congr
  intro r
  cases r with
  | ok a =>
    by_cases hE : E a
    · have hmem : Except.ok a ∈ {r : Except ε X | ∃ a, r = .ok a ∧ E a} := ⟨a, rfl, hE⟩
      rw [Set.indicator_of_mem hmem, worth, holds_true hE, mul_one]
    · have hmem : Except.ok a ∉ {r : Except ε X | ∃ a, r = .ok a ∧ E a} := by
        rintro ⟨b, hb, hb'⟩
        exact hE (Except.ok.inj hb ▸ hb')
      rw [Set.indicator_of_notMem hmem, worth, holds_false hE, mul_zero]
  | error e => simp [worth]

section Rules
variable (g : X → ℝ≥0∞)

noncomputable def given (r : Except ε X) : ExceptT ε PMF X := ExceptT.mk (PMF.pure r)

theorem expected_given (r : Except ε X) : expected (given r) g = worth g r := by
  change tsum (fun s => PMF.pure r s * worth g s) = worth g r
  rw [tsum_eq_single r]
  · simp
  · intro s hs
    rw [PMF.pure_apply_of_ne _ _ hs, zero_mul]

theorem expected_error (e : ε) : expected (throw e : ExceptT ε PMF X) g = 0 :=
  expected_given g (.error e)

theorem expected_pure (a : X) : expected (pure a : ExceptT ε PMF X) g = g a :=
  expected_given g (.ok a)

theorem expected_add (x : ExceptT ε PMF X) (g h : X → ℝ≥0∞) :
    expected x (fun a => g a + h a) = expected x g + expected x h := by
  rw [expected, expected, expected, ← ENNReal.tsum_add]
  apply tsum_congr
  intro r
  cases r with
  | ok a => exact mul_add _ _ _
  | error e => simp [worth]

theorem expected_mul_left (x : ExceptT ε PMF X) (c : ℝ≥0∞) :
    expected x (fun a => c * g a) = c * expected x g := by
  rw [expected, expected, ← ENNReal.tsum_mul_left]
  apply tsum_congr
  intro r
  cases r with
  | ok a => exact mul_left_comm _ _ _
  | error e => simp [worth]

theorem expected_zero (x : ExceptT ε PMF X) : expected x (fun _ => 0) = 0 := by
  have hmul := expected_mul_left (fun _ => 0) x 0
  simpa only [zero_mul] using hmul

theorem expected_sum (x : ExceptT ε PMF X) (s : Finset Y) (g : Y → X → ℝ≥0∞) :
    expected x (fun a => ∑ y ∈ s, g y a) = ∑ y ∈ s, expected x (g y) := by
  classical
  induction s using Finset.induction_on with
  | empty =>
    rw [Finset.sum_empty, expected, ENNReal.tsum_eq_zero]
    intro r
    cases r <;> simp [worth]
  | insert y s hy ih =>
    simp only [Finset.sum_insert hy, expected_add, ih]

theorem expected_bind (x : ExceptT ε PMF Y) (f : Y → ExceptT ε PMF X) :
    expected (x >>= f) g = expected x (fun a => expected (f a) g) := by
  have hrun : ∀ r, (x >>= f).run r = tsum (fun s => x.run s * (ExceptT.bindCont f s) r) :=
    fun r => rfl
  calc expected (x >>= f) g
      = tsum (fun r => tsum (fun s => x.run s * (ExceptT.bindCont f s) r * worth g r)) := by
        rw [expected]
        simp only [hrun, ENNReal.tsum_mul_right]
    _ = tsum (fun s => x.run s * tsum (fun r => (ExceptT.bindCont f s) r * worth g r)) := by
        rw [ENNReal.tsum_comm]
        simp only [mul_assoc, ENNReal.tsum_mul_left]
    _ = tsum (fun s => x.run s * worth (fun a => expected (f a) g) s) := by
        apply tsum_congr
        intro s
        cases s with
        | ok a => rfl
        | error e => exact congrArg _ (expected_error g e)

theorem expected_lift (p : PMF X) :
    expected (ExceptT.lift p : ExceptT ε PMF X) g = tsum (fun a => p a * g a) := by
  have hrun : ∀ r, (ExceptT.lift p : ExceptT ε PMF X).run r =
      tsum (fun a => p a * PMF.pure (Except.ok a : Except ε X) r) := fun r => rfl
  calc expected (ExceptT.lift p : ExceptT ε PMF X) g
      = tsum (fun r : Except ε X => tsum (fun a =>
          p a * PMF.pure (Except.ok a) r * worth g r)) := by
        rw [expected]
        simp only [hrun, ENNReal.tsum_mul_right]
    _ = tsum (fun a => p a * tsum (fun r : Except ε X =>
          PMF.pure (Except.ok a) r * worth g r)) := by
        rw [ENNReal.tsum_comm]
        simp only [mul_assoc, ENNReal.tsum_mul_left]
    _ = tsum (fun a => p a * g a) := tsum_congr (fun a => congrArg _ (expected_pure (ε := ε) g a))

end Rules

section Draw
variable [Fintype V]

omit [Fintype V] in
theorem weights_ne_zero {w : V → ℝ} (h : ∃ v, 0 < w v) :
    tsum (fun v => ENNReal.ofReal (w v)) ≠ 0 := by
  obtain ⟨v, hv⟩ := h
  intro hzero
  exact absurd (ENNReal.ofReal_eq_zero.1 (ENNReal.tsum_eq_zero.1 hzero v)) (not_le.2 hv)

theorem weights_ne_top (w : V → ℝ) : tsum (fun v => ENNReal.ofReal (w v)) ≠ ∞ := by
  rw [tsum_fintype]
  exact (ENNReal.sum_lt_top.2 (fun v _ => ENNReal.ofReal_lt_top)).ne

open Classical in
noncomputable def draw (e : ε) (w : V → ℝ) : ExceptT ε PMF V :=
  if h : ∃ v, 0 < w v
  then ExceptT.lift
    (PMF.normalize (fun v => ENNReal.ofReal (w v)) (weights_ne_zero h) (weights_ne_top w))
  else throw e

theorem expected_draw (e : ε) {w : V → ℝ} (hw : ∀ v, 0 ≤ w v) (g : V → ℝ≥0∞) :
    expected (draw e w) g = ∑ v, ENNReal.ofReal (w v / ∑ u, w u) * g v := by
  by_cases h : ∃ v, 0 < w v
  · have hsum : 0 < ∑ u, w u := by
      obtain ⟨v, hv⟩ := h
      exact Finset.sum_pos' (fun u _ => hw u) ⟨v, Finset.mem_univ v, hv⟩
    rw [draw, dif_pos h, expected_lift, tsum_fintype]
    apply Finset.sum_congr rfl
    intro v _
    rw [PMF.normalize_apply, tsum_fintype, ← ENNReal.ofReal_sum_of_nonneg (fun u _ => hw u),
      ENNReal.ofReal_div_of_pos hsum, div_eq_mul_inv]
  · push Not at h
    have hzero : ∀ v, w v = 0 := fun v => le_antisymm (h v) (hw v)
    rw [draw, dif_neg (by push Not; exact h), expected_error]
    simp [hzero]

end Draw

noncomputable def uniform : Measure (Uniform ℝ) := volume.comap Subtype.val

theorem uniform_between {a b : ℝ} (h0 : 0 ≤ a) (h1 : b ≤ 1) :
    uniform {u : Uniform ℝ | a ≤ (u : ℝ) ∧ (u : ℝ) < b} = ENNReal.ofReal (b - a) := by
  have himage : Set.image Subtype.val {u : Uniform ℝ | a ≤ (u : ℝ) ∧ (u : ℝ) < b} =
      Set.Ico a b := by
    ext x
    constructor
    · rintro ⟨u, hu, rfl⟩
      exact hu
    · intro hx
      exact ⟨⟨x, h0.trans hx.1, hx.2.trans_le h1⟩, hx, rfl⟩
  rw [uniform, comap_subtype_coe_apply measurableSet_Ico, himage, Real.volume_Ico]

theorem uniform_below {a : ℝ} (h1 : a ≤ 1) :
    uniform {u : Uniform ℝ | (u : ℝ) < a} = ENNReal.ofReal a := by
  have hbetween := uniform_between (le_refl 0) h1
  have hset : {u : Uniform ℝ | 0 ≤ (u : ℝ) ∧ (u : ℝ) < a} = {u : Uniform ℝ | (u : ℝ) < a} :=
    Set.ext (fun u => and_iff_right u.2.1)
  rwa [hset, sub_zero] at hbetween

instance : IsProbabilityMeasure uniform where
  measure_univ := by
    have hall : (Set.univ : Set (Uniform ℝ)) = {u : Uniform ℝ | (u : ℝ) < 1} :=
      (Set.eq_univ_of_forall (fun u => u.2.2)).symm
    rw [hall, uniform_below le_rfl, ENNReal.ofReal_one]

theorem measurable_below (a : ℝ) : Measurable (fun u : Uniform ℝ => decide ((u : ℝ) < a)) := by
  apply measurable_to_bool
  have hset : Set.preimage (fun u : Uniform ℝ => decide ((u : ℝ) < a)) {true} =
      {u : Uniform ℝ | (u : ℝ) < a} := by
    ext u
    simp
  rw [hset]
  exact measurableSet_lt measurable_subtype_coe measurable_const

noncomputable def test (f : Uniform ℝ → Bool) (hf : Measurable f) : PMF Bool :=
  haveI := Measure.isProbabilityMeasure_map (μ := uniform) hf.aemeasurable
  (uniform.map f).toPMF

theorem test_apply {f : Uniform ℝ → Bool} (hf : Measurable f) (b : Bool) :
    test f hf b = uniform {u | f u = b} := by
  rw [test, Measure.toPMF_apply, Measure.map_apply hf (measurableSet_singleton b)]
  rfl

theorem expected_test {f : Uniform ℝ → Bool} (hf : Measurable f) (g : Bool → ℝ≥0∞) :
    expected (ExceptT.lift (test f hf) : ExceptT ε PMF Bool) g =
      lintegral uniform (fun u => g (f u)) := by
  rw [← lintegral_map (measurable_of_finite g) hf, lintegral_fintype, expected_lift, tsum_fintype]
  apply Finset.sum_congr rfl
  intro b _
  rw [test, Measure.toPMF_apply, mul_comm]

theorem test_below_true {a : ℝ} (h1 : a ≤ 1) :
    test _ (measurable_below a) true = ENNReal.ofReal a := by
  rw [test_apply, ← uniform_below h1]
  simp

theorem test_below_false {a : ℝ} (h0 : 0 ≤ a) (h1 : a ≤ 1) :
    test _ (measurable_below a) false = ENNReal.ofReal (1 - a) := by
  have hsum := (test _ (measurable_below a)).tsum_coe
  rw [tsum_bool, test_below_true h1] at hsum
  rw [ENNReal.ofReal_sub _ h0, ENNReal.ofReal_one, ← hsum,
    ENNReal.add_sub_cancel_right ENNReal.ofReal_ne_top]

theorem expected_below {a : ℝ} (h0 : 0 ≤ a) (h1 : a ≤ 1) (g : Bool → ℝ≥0∞) :
    expected (ExceptT.lift (test _ (measurable_below a)) : ExceptT ε PMF Bool) g =
      ENNReal.ofReal a * g true + ENNReal.ofReal (1 - a) * g false := by
  rw [expected_lift, tsum_bool, test_below_true h1, test_below_false h0 h1, add_comm]

/-! A draw by weight from a uniform draw: the numbers below one are divided among what has weight. -/

section Inverse
variable {n : ℕ} {w : Fin n → ℝ} {v : Fin n} {u : Uniform ℝ}

noncomputable def below (w : Fin n → ℝ) (v : Fin n) : ℝ := ∑ j ∈ Finset.Iio v, max (w j) 0

noncomputable def total (w : Fin n → ℝ) : ℝ := ∑ j, max (w j) 0

def Falls (u : Uniform ℝ) (w : Fin n → ℝ) (v : Fin n) : Prop :=
  below w v ≤ u * total w ∧ u * total w < below w v + max (w v) 0

theorem below_add (w : Fin n → ℝ) (v : Fin n) :
    below w v + max (w v) 0 = ∑ j ∈ insert v (Finset.Iio v), max (w j) 0 := by
  rw [Finset.sum_insert (by simp), below, add_comm]

theorem below_add_le {v' : Fin n} (h : v < v') : below w v + max (w v) 0 ≤ below w v' := by
  rw [below_add, below]
  apply Finset.sum_le_sum_of_subset_of_nonneg
  · intro j hj
    obtain rfl | hj := Finset.mem_insert.1 hj
    · exact Finset.mem_Iio.2 h
    · exact Finset.mem_Iio.2 ((Finset.mem_Iio.1 hj).trans h)
  · exact fun j _ _ => le_max_right _ _

theorem below_add_le_total (w : Fin n → ℝ) (v : Fin n) : below w v + max (w v) 0 ≤ total w := by
  rw [below_add]
  exact Finset.sum_le_sum_of_subset_of_nonneg (Finset.subset_univ _) (fun j _ _ => le_max_right _ _)

theorem below_first (h : v.val = 0) : below w v = 0 := by
  rw [below, Finset.sum_eq_zero]
  intro j hj
  have hlt := Fin.lt_def.1 (Finset.mem_Iio.1 hj)
  omega

theorem below_next {l : Fin n} (h : v.val = l.val + 1) : below w v = below w l + max (w l) 0 := by
  rw [below_add, below]
  congr 1
  ext j
  simp only [Finset.mem_Iio, Finset.mem_insert, Fin.lt_def, Fin.ext_iff]
  omega

theorem total_eq_below (h : v.val + 1 = n) : total w = below w v + max (w v) 0 := by
  rw [below_add, total]
  congr 1
  ext j
  have hj := j.isLt
  simp only [Finset.mem_univ, Finset.mem_Iio, Finset.mem_insert, Fin.lt_def, Fin.ext_iff, true_iff]
  omega

theorem Falls.unique {v' : Fin n} (h : Falls u w v) (h' : Falls u w v') : v = v' := by
  obtain hlt | heq | hgt := lt_trichotomy v v'
  · exact absurd (h.2.trans_le (below_add_le hlt)) (not_lt.2 h'.1)
  · exact heq
  · exact absurd (h'.2.trans_le (below_add_le hgt)) (not_lt.2 h.1)

theorem total_pos (h : ∃ v, 0 < w v) : 0 < total w := by
  obtain ⟨v, hv⟩ := h
  exact Finset.sum_pos' (fun j _ => le_max_right _ _)
    ⟨v, Finset.mem_univ v, lt_max_of_lt_left hv⟩

theorem exists_falls (u : Uniform ℝ) (h : ∃ v, 0 < w v) : ∃ v, Falls u w v := by
  have hpos := total_pos h
  by_contra hnone
  have hbehind : ∀ (k : ℕ) (v : Fin n), v.val = k → below w v + max (w v) 0 ≤ u * total w := by
    intro k
    induction k with
    | zero =>
      intro v hv
      by_contra hlt
      exact hnone ⟨v, (below_first hv).trans_le (mul_nonneg u.2.1 hpos.le), not_le.1 hlt⟩
    | succ k ih =>
      intro v hv
      let before : Fin n := ⟨k, by omega⟩
      by_contra hlt
      exact hnone ⟨v, (below_next (l := before) hv).trans_le (ih before rfl), not_le.1 hlt⟩
  obtain ⟨v, _⟩ := h
  let last : Fin n := ⟨n - 1, by have := v.isLt; omega⟩
  have hlast : last.val + 1 = n := Nat.sub_add_cancel (Nat.zero_lt_of_lt v.isLt)
  have hover := hbehind last.val last rfl
  rw [← total_eq_below hlast] at hover
  exact absurd hover (not_le.2 (mul_lt_of_lt_one_left hpos u.2.2))

theorem Falls.pos (h : Falls u w v) : 0 < w v := by
  have hmax : 0 < max (w v) 0 := by
    have hlt := h.1.trans_lt h.2
    linarith
  exact (lt_max_iff.1 hmax).resolve_right (lt_irrefl 0)

variable [NeZero n]

open Classical in
noncomputable def inverseDraw (u : Uniform ℝ) (w : Fin n → ℝ) : Fin n :=
  if h : ∃ v, Falls u w v then h.choose else 0

theorem falls_inverseDraw (u : Uniform ℝ) (h : ∃ v, 0 < w v) : Falls u w (inverseDraw u w) := by
  have hfalls := exists_falls u h
  rw [inverseDraw, dif_pos hfalls]
  exact hfalls.choose_spec

theorem inverseDraw_pos (u : Uniform ℝ) (w : Fin n → ℝ) (h : ∃ v, 0 < w v) :
    0 < w (inverseDraw u w) := (falls_inverseDraw u h).pos

noncomputable def inverse (u : Uniform ℝ) : Multinomial (Fin n) ℝ :=
  ⟨inverseDraw u, inverseDraw_pos u⟩

theorem preimage_inverseDraw (h : ∃ v, 0 < w v) (v : Fin n) :
    {u : Uniform ℝ | inverseDraw u w = v} =
      {u : Uniform ℝ | below w v / total w ≤ (u : ℝ) ∧
        (u : ℝ) < (below w v + max (w v) 0) / total w} := by
  have hpos := total_pos h
  ext u
  rw [Set.mem_ofPred_eq, Set.mem_ofPred_eq, div_le_iff₀ hpos, lt_div_iff₀ hpos]
  constructor
  · rintro rfl
    exact falls_inverseDraw u h
  · exact fun hv => (falls_inverseDraw u h).unique hv

theorem measurable_inverseDraw (h : ∃ v, 0 < w v) :
    Measurable (fun u : Uniform ℝ => inverseDraw u w) := by
  apply measurable_to_countable'
  intro v
  have hset : Set.preimage (fun u : Uniform ℝ => inverseDraw u w) {v} =
      {u : Uniform ℝ | inverseDraw u w = v} := rfl
  rw [hset, preimage_inverseDraw h]
  exact (measurableSet_le measurable_const measurable_subtype_coe).inter
    (measurableSet_lt measurable_subtype_coe measurable_const)

theorem uniform_inverseDraw (h : ∃ v, 0 < w v) (v : Fin n) :
    uniform {u : Uniform ℝ | inverseDraw u w = v} =
      ENNReal.ofReal (max (w v) 0 / total w) := by
  have hpos := total_pos h
  have hbelow : 0 ≤ below w v := Finset.sum_nonneg (fun j _ => le_max_right _ _)
  have hgap : (below w v + max (w v) 0) / total w - below w v / total w =
      max (w v) 0 / total w := by ring
  rw [preimage_inverseDraw h, uniform_between (div_nonneg hbelow hpos.le)
    (div_le_one_of_le₀ (below_add_le_total w v) hpos.le), hgap]

open Classical in
theorem expected_draw_uniform (e : ε) (w : Fin n → ℝ) (g : Fin n → ℝ≥0∞) :
    expected (draw e w) g = lintegral uniform (fun u =>
      if ∃ v, 0 < w v then g ((inverse u).draw w) else 0) := by
  by_cases h : ∃ v, 0 < w v
  · have hpos := total_pos h
    have hsum : tsum (fun v => ENNReal.ofReal (w v)) = ENNReal.ofReal (total w) := by
      rw [tsum_fintype, total, ENNReal.ofReal_sum_of_nonneg (fun v _ => le_max_right _ _)]
      apply Finset.sum_congr rfl
      intro v _
      rw [ENNReal.ofReal_max, ENNReal.ofReal_zero, max_eq_left zero_le]
    have hmap := lintegral_map (μ := uniform) (f := g) (measurable_of_finite g)
      (measurable_inverseDraw h)
    simp only [h, if_true]
    rw [draw, dif_pos h, expected_lift, tsum_fintype]
    refine Eq.trans ?_ hmap
    rw [lintegral_fintype]
    apply Finset.sum_congr rfl
    intro v _
    rw [PMF.normalize_apply, hsum, Measure.map_apply (measurable_inverseDraw h)
      (measurableSet_singleton v), mul_comm (g v)]
    congr 1
    have hset : Set.preimage (fun u : Uniform ℝ => inverseDraw u w) {v} =
        {u : Uniform ℝ | inverseDraw u w = v} := rfl
    rw [hset, uniform_inverseDraw h, ENNReal.ofReal_div_of_pos hpos, div_eq_mul_inv]
    congr 1
    rw [ENNReal.ofReal_max, ENNReal.ofReal_zero, max_eq_left zero_le]
  · simp only [h, if_false]
    rw [draw, dif_neg h, expected_error]
    simp

end Inverse

end Slakshna.Chance

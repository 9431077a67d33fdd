import Mathlib.Algebra.Order.Field.Basic
import Mathlib.Algebra.Order.Group.Abs
import Mathlib.Tactic.Linarith
import Mathlib.Tactic.Ring

/-! The nearest of some points of a line, by a scan of all distances and by a search among the
midpoints of neighbours. -/
namespace Slakshna.Nearest

section Scan
variable {K : Type*} [LinearOrder K]

def argmin : List K → ℕ
  | [] => 0
  | a :: rest => if ∀ b ∈ rest, a ≤ b then 0 else argmin rest + 1

def countBelow (bs : List K) (x : K) : ℕ := bs.countP (fun b => decide (b < x))

theorem countBelow_cons (b : K) (bs : List K) (x : K) :
    countBelow (b :: bs) x = countBelow bs x + if b < x then 1 else 0 := by
  simp [countBelow, List.countP_cons]

theorem countBelow_eq_zero {bs : List K} {x : K} (h : ∀ b ∈ bs, x ≤ b) : countBelow bs x = 0 := by
  rw [countBelow, List.countP_eq_zero]
  intro b hb
  simpa using h b hb

theorem countBelow_le (bs : List K) (x : K) : countBelow bs x ≤ bs.length := List.countP_le_length

theorem getElem_lt_iff {bs : List K} (h : bs.Pairwise (· ≤ ·)) (x : K) (i : ℕ)
    (hi : i < bs.length) : bs[i] < x ↔ i < countBelow bs x := by
  induction bs generalizing i with
  | nil => exact absurd hi (Nat.not_lt_zero i)
  | cons b bs ih =>
    obtain ⟨hb, hbs⟩ := List.pairwise_cons.1 h
    rw [countBelow_cons]
    by_cases hbx : b < x
    · rw [if_pos hbx]
      cases i with
      | zero => simpa using hbx
      | succ i => simpa using ih hbs i (Nat.lt_of_succ_lt_succ hi)
    · have hnone : countBelow bs x = 0 :=
        countBelow_eq_zero (fun c hc => (not_lt.1 hbx).trans (hb c hc))
      rw [if_neg hbx, hnone]
      refine iff_of_false ?_ (Nat.not_lt_zero i)
      cases i with
      | zero => exact hbx
      | succ i => exact not_lt.2 ((not_lt.1 hbx).trans (hb _ (List.getElem_mem _)))

theorem argmin_spec {xs : List K} (h : xs ≠ []) : ∃ hlt : argmin xs < xs.length,
    (∀ b ∈ xs, xs[argmin xs] ≤ b) ∧ ∀ b ∈ xs.take (argmin xs), xs[argmin xs] < b := by
  induction xs with
  | nil => exact absurd rfl h
  | cons a rest ih =>
    by_cases hall : ∀ b ∈ rest, a ≤ b
    · have hzero : argmin (a :: rest) = 0 := if_pos hall
      refine ⟨hzero ▸ Nat.succ_pos _, ?_, ?_⟩
      · simpa [hzero] using hall
      · simp [hzero]
    · have hsucc : argmin (a :: rest) = argmin rest + 1 := if_neg hall
      have hrest : rest ≠ [] := by
        rintro rfl
        exact hall (by simp)
      obtain ⟨hlt, hmin, hfirst⟩ := ih hrest
      have hless : rest[argmin rest] < a := by
        by_contra hge
        exact hall (fun b hb => (not_lt.1 hge).trans (hmin b hb))
      refine ⟨by rw [hsucc]; exact Nat.succ_lt_succ hlt, ?_, ?_⟩
      · simp only [hsucc, List.getElem_cons_succ, List.forall_mem_cons]
        exact ⟨hless.le, hmin⟩
      · simp only [hsucc, List.getElem_cons_succ, List.take_succ_cons, List.forall_mem_cons]
        exact ⟨hless, hfirst⟩

end Scan

variable {K : Type*} [Field K]

def midpoints : List K → List K
  | c :: d :: rest => (c + d) / 2 :: midpoints (d :: rest)
  | _ => []

variable [LinearOrder K] [IsStrictOrderedRing K]

theorem abs_sub_le_abs_sub {c d x : K} (hcd : c < d) : |x - c| ≤ |x - d| ↔ x ≤ (c + d) / 2 := by
  rw [← sq_le_sq, le_div_iff₀ two_pos]
  constructor
  · intro h
    nlinarith
  · intro h
    nlinarith

theorem lt_midpoints {c : K} {cs : List K} (h : (c :: cs).Pairwise (· < ·)) :
    ∀ m ∈ midpoints (c :: cs), c < m := by
  induction cs generalizing c with
  | nil => simp [midpoints]
  | cons d rest ih =>
    obtain ⟨hc, hrest⟩ := List.pairwise_cons.1 h
    have hcd : c < d := hc d List.mem_cons_self
    intro m hm
    rw [midpoints] at hm
    cases List.mem_cons.1 hm with
    | inl heq =>
      rw [heq, lt_div_iff₀ two_pos]
      linarith
    | inr hm => exact hcd.trans (ih hrest m hm)

omit [LinearOrder K] [IsStrictOrderedRing K] in
theorem length_midpoints (cs : List K) : (midpoints cs).length = cs.length - 1 := by
  induction cs with
  | nil => rfl
  | cons c cs ih =>
    cases cs with
    | nil => rfl
    | cons d rest => simp [midpoints, ih]

theorem midpoints_increasing {cs : List K} (h : cs.Pairwise (· < ·)) :
    (midpoints cs).Pairwise (· < ·) := by
  induction cs with
  | nil => exact List.Pairwise.nil
  | cons c cs ih =>
    obtain ⟨hc, hcs⟩ := List.pairwise_cons.1 h
    cases cs with
    | nil => exact List.Pairwise.nil
    | cons d rest =>
      have hcd : c < d := hc d List.mem_cons_self
      rw [midpoints, List.pairwise_cons]
      refine ⟨?_, ih hcs⟩
      intro m hm
      have hd := lt_midpoints hcs m hm
      linarith

theorem countBelow_midpoints {cs : List K} (h : cs.Pairwise (· < ·)) (x : K) :
    countBelow (midpoints cs) x = argmin (cs.map (fun c => |x - c|)) := by
  induction cs with
  | nil => rfl
  | cons c cs ih =>
    obtain ⟨hc, hcs⟩ := List.pairwise_cons.1 h
    cases cs with
    | nil => simp [midpoints, countBelow, argmin]
    | cons d rest =>
      have hcd : c < d := hc d List.mem_cons_self
      rw [midpoints, countBelow_cons, List.map_cons, argmin]
      by_cases hx : x ≤ (c + d) / 2
      · -- every later point is further away, and every later midpoint is not below
        have hfar : ∀ b ∈ (d :: rest).map (fun e => |x - e|), |x - c| ≤ b := by
          intro b hb
          obtain ⟨e, he, rfl⟩ := List.mem_map.1 hb
          have hde : d ≤ e := by
            cases List.mem_cons.1 he with
            | inl heq => exact heq.ge
            | inr he => exact ((List.pairwise_cons.1 hcs).1 e he).le
          rw [abs_sub_le_abs_sub (hc e he)]
          linarith
        have hnone : countBelow (midpoints (d :: rest)) x = 0 := by
          apply countBelow_eq_zero
          intro m hm
          have hdm := lt_midpoints hcs m hm
          linarith
        rw [if_pos hfar, hnone, if_neg (not_lt.2 hx)]
      · have hnear : ¬∀ b ∈ (d :: rest).map (fun e => |x - e|), |x - c| ≤ b := by
          intro hall
          exact hx ((abs_sub_le_abs_sub hcd).1 (hall _ List.mem_cons_self))
        rw [if_neg hnear, if_pos (not_le.1 hx), ih hcs]

end Slakshna.Nearest

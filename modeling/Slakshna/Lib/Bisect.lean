import Mathlib.Algebra.Order.Ring.Int
import Mathlib.Tactic.Linarith

/-! The search for the first place of a range at which a test fails, by halving a bracket a given
number of times. -/
namespace Slakshna.Bisect

structure Bracket where
  lo : ℤ
  hi : ℤ
deriving DecidableEq, Repr

def Bracket.mid (s : Bracket) : ℤ := (s.lo + s.hi) / 2

def Bracket.narrow (below : ℤ → Prop) [DecidablePred below] (s : Bracket) : Bracket :=
  if below s.mid then ⟨s.mid + 1, s.hi⟩ else ⟨s.lo, s.mid⟩

/-- The places `0` to `m - 1` pass the test up to `answer`; the bracket holds at most `left`
candidates for it. The place behind the last one is a candidate as long as `hi` has not moved. -/
structure Encloses (m answer : ℤ) (left : ℕ) (s : Bracket) : Prop where
  lo_nonneg : 0 ≤ s.lo
  hi_nonneg : 0 ≤ s.hi
  hi_lt : s.hi < m
  lo_le : s.lo ≤ answer
  le_hi : answer ≤ s.hi ∧ s.hi < s.lo + left ∨
    answer ≤ m ∧ s.hi = m - 1 ∧ s.hi + 1 < s.lo + left

variable {m answer : ℤ} {left : ℕ} {s : Bracket}

theorem encloses_start (hm : 0 < m) (hzero : 0 ≤ answer) (hle : answer ≤ m) (hleft : m < left) :
    Encloses m answer left ⟨0, m - 1⟩ := by
  have hstart : (0 : ℤ) ≤ m - 1 := by omega
  have hend : m - 1 < m := by omega
  have hlast : m - 1 + 1 < (0 : ℤ) + left := by omega
  exact ⟨le_rfl, hstart, hend, hzero, Or.inr ⟨hle, rfl, hlast⟩⟩

theorem Encloses.mid_mem (h : Encloses m answer left s) : 0 ≤ s.mid ∧ s.mid < m := by
  have hlo := h.lo_nonneg
  have hhi := h.hi_nonneg
  have hlt := h.hi_lt
  have hle := h.lo_le
  have hmid : s.mid ≤ s.hi := by
    rw [Bracket.mid]
    rcases h.le_hi with ⟨hanswer, -⟩ | ⟨hanswer, hlast, -⟩
    · omega
    · omega
  have hnonneg : 0 ≤ s.mid := by
    rw [Bracket.mid]
    omega
  exact ⟨hnonneg, by omega⟩

theorem Encloses.narrow {below : ℤ → Prop} [DecidablePred below]
    (h : Encloses m answer (2 * left) s)
    (htest : ∀ i, 0 ≤ i → i < m → (below i ↔ i < answer)) :
    Encloses m answer left (s.narrow below) := by
  obtain ⟨hmid_nonneg, hmid_lt⟩ := h.mid_mem
  have hask := htest s.mid hmid_nonneg hmid_lt
  have hmid : s.mid = (s.lo + s.hi) / 2 := rfl
  have hlo := h.lo_nonneg
  have hhi := h.hi_nonneg
  have hlt := h.hi_lt
  have hle := h.lo_le
  by_cases hbelow : below s.mid
  · have hanswer := hask.1 hbelow
    rw [Bracket.narrow, if_pos hbelow]
    refine ⟨by dsimp only; omega, hhi, hlt, by dsimp only; omega, ?_⟩
    rcases h.le_hi with ⟨hupper, hcount⟩ | ⟨hupper, hlast, hcount⟩
    · left
      dsimp only
      omega
    · right
      dsimp only
      omega
  · have hanswer : answer ≤ s.mid := not_lt.1 (fun hless => hbelow (hask.2 hless))
    rw [Bracket.narrow, if_neg hbelow]
    refine ⟨hlo, hmid_nonneg, hmid_lt, hle, Or.inl ⟨hanswer, ?_⟩⟩
    dsimp only
    rcases h.le_hi with ⟨hupper, hcount⟩ | ⟨hupper, hlast, hcount⟩
    · omega
    · omega

theorem Encloses.lo_eq (h : Encloses m answer 1 s) : s.lo = answer := by
  have hle := h.lo_le
  rcases h.le_hi with ⟨hupper, hcount⟩ | ⟨hupper, hlast, hcount⟩
  · omega
  · omega

theorem encloses_iterate {below : ℤ → Prop} [DecidablePred below] {rounds k : ℕ} (hk : k ≤ rounds)
    (hm : 0 < m) (hzero : 0 ≤ answer) (hle : answer ≤ m) (hrounds : m < 2 ^ rounds)
    (htest : ∀ i, 0 ≤ i → i < m → (below i ↔ i < answer)) :
    Encloses m answer (2 ^ (rounds - k)) ((Bracket.narrow below)^[k] ⟨0, m - 1⟩) := by
  induction k with
  | zero =>
    apply encloses_start hm hzero hle
    simpa using hrounds
  | succ k ih =>
    rw [Function.iterate_succ_apply']
    have hleft : 2 ^ (rounds - k) = 2 * 2 ^ (rounds - (k + 1)) := by
      rw [← pow_succ']
      congr 1
      omega
    have hprevious := ih (Nat.le_of_succ_le hk)
    rw [hleft] at hprevious
    exact hprevious.narrow htest

end Slakshna.Bisect

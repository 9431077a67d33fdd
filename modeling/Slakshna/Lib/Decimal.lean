import Mathlib.Data.List.Basic

/-! Decimal digits of any script, each with its value. -/
namespace Slakshna.Decimal

/-- The zeros of Unicode 14 in the basic plane; nine more digits stand behind each. -/
def basicZeros : List ℕ :=
  [0x30, 0x660, 0x6f0, 0x7c0, 0x966, 0x9e6, 0xa66, 0xae6, 0xb66, 0xbe6, 0xc66, 0xce6, 0xd66, 0xde6,
    0xe50, 0xed0, 0xf20, 0x1040, 0x1090, 0x17e0, 0x1810, 0x1946, 0x19d0, 0x1a80, 0x1a90, 0x1b50,
    0x1bb0, 0x1c40, 0x1c50, 0xa620, 0xa8d0, 0xa900, 0xa9d0, 0xa9f0, 0xaa50, 0xabf0, 0xff10]

def zeros : List ℕ :=
  basicZeros ++ [0x104a0, 0x10d30, 0x11066, 0x110f0, 0x11136, 0x111d0, 0x112f0, 0x11450, 0x114d0,
    0x11650, 0x116c0, 0x11730, 0x118e0, 0x11950, 0x11c50, 0x11d50, 0x11da0, 0x16a60, 0x16ac0,
    0x16b50, 0x1d7ce, 0x1d7d8, 0x1d7e2, 0x1d7ec, 0x1d7f6, 0x1e140, 0x1e2f0, 0x1e950, 0x1fbf0]

def digitValue (c : Char) : Option ℕ :=
  (zeros.find? (fun first => first ≤ c.toNat && c.toNat < first + 10)).map (c.toNat - ·)

def isDecimal (c : Char) : Bool := (digitValue c).isSome

def ofDecimals (cs : List Char) : ℕ := cs.foldl (fun n c => 10 * n + (digitValue c).getD 0) 0

theorem digitValue_of_isDigit {c : Char} (h : c.isDigit) :
    digitValue c = some (c.toNat - '0'.toNat) := by
  have hrange : 48 ≤ c.toNat ∧ c.toNat ≤ 57 := by
    rw [Char.isDigit, Bool.and_eq_true, decide_eq_true_eq, decide_eq_true_eq] at h
    exact ⟨h.1, h.2⟩
  have hhere : (decide (0x30 ≤ c.toNat) && decide (c.toNat < 0x30 + 10)) = true := by
    rw [Bool.and_eq_true, decide_eq_true_eq, decide_eq_true_eq]
    omega
  rw [digitValue, zeros, basicZeros, List.cons_append, List.find?_cons, hhere]
  rfl

theorem isDecimal_of_isDigit {c : Char} (h : c.isDigit) : isDecimal c := by
  rw [isDecimal, digitValue_of_isDigit h]
  rfl

theorem ofDecimals_eq {cs : List Char} (h : ∀ c ∈ cs, c.isDigit) :
    ofDecimals cs = Nat.ofDigitChars 10 cs 0 := by
  rw [ofDecimals, Nat.ofDigitChars]
  apply List.foldl_ext
  intro n c hc
  rw [digitValue_of_isDigit (h c hc), Option.getD_some]

end Slakshna.Decimal

import Mathlib.Algebra.Field.Rat
import Mathlib.Tactic.Linarith
import Slakshna.Lib.Bytes

/-! The type `f64` as it is stored and hashed, by its 64 bits, and the exact numbers its
finite values denote. Rounded arithmetic is not modelled: sums are taken over the numbers. -/
namespace Slakshna

/-- The bytes of a number, as `to_le_bytes` gives them: eight, and different for different values. -/
class LeBytes (F : Type) where
  toLeBytes : F → Bytes
  length_toLeBytes : ∀ x, (toLeBytes x).length = 8
  toLeBytes_injective : Function.Injective toLeBytes

class ExactValue (F : Type) where
  toRat : F → ℚ

structure F64 where
  bits : BitVec 64
  deriving DecidableEq

namespace F64

def byte (x : F64) (i : Nat) : UInt8 := ⟨x.bits.extractLsb' (8*i) 8⟩

def toLeBytes (x : F64) : Bytes := (List.range 8).map x.byte

theorem toLeBytes_injective : Function.Injective toLeBytes := by
  intro x y h
  have hbyte : ∀ i < 8, x.byte i = y.byte i := by
    intro i hi
    exact List.map_inj_left.1 h i (List.mem_range.2 hi)
  obtain ⟨xb⟩ := x
  obtain ⟨yb⟩ := y
  congr 1
  apply BitVec.eq_of_getLsbD_eq
  intro k hk
  -- bit k is bit k%8 of byte k/8
  have hv := congrArg (fun b => b.toBitVec.getLsbD (k%8)) (hbyte (k/8) (by omega))
  have hk8 : k%8 < 8 := by omega
  have hsum : 8*(k/8)+k%8 = k := by omega
  simpa [byte, BitVec.getLsbD_extractLsb', hk8, hsum] using hv

instance : LeBytes F64 where
  toLeBytes := toLeBytes
  length_toLeBytes x := by simp [toLeBytes]
  toLeBytes_injective := toLeBytes_injective

instance : Zero F64 := ⟨⟨0⟩⟩

def exponentBits (x : F64) : Nat := x.bits.toNat / 2^52 % 2^11

def fractionBits (x : F64) : Nat := x.bits.toNat % 2^52

def negative (x : F64) : Bool := decide (2^63 ≤ x.bits.toNat)

def IsFinite (x : F64) : Prop := x.exponentBits ≠ 2047

instance (x : F64) : Decidable x.IsFinite := inferInstanceAs (Decidable (_ ≠ _))

def value (x : F64) : ℚ :=
  let significand := if x.exponentBits = 0 then x.fractionBits else 2^52 + x.fractionBits
  let power : Int := if x.exponentBits = 0 then -1074 else (x.exponentBits : Int) - 1075
  let magnitude : ℚ := (significand : ℚ) * (2:ℚ)^power
  if x.negative then -magnitude else magnitude

/-- The place of a pattern on the line of all values: neighbours differ by one, both zeros are 0. -/
def place (x : F64) : Int :=
  if x.negative then -((x.bits.toNat - 2^63 : Nat) : Int) else (x.bits.toNat : Int)

def WithinUlp (x y : F64) : Prop := (y.place - x.place).natAbs ≤ 1

instance (x y : F64) : Decidable (WithinUlp x y) := inferInstanceAs (Decidable (_ ≤ _))

theorem withinUlp_self (x : F64) : WithinUlp x x := by simp [WithinUlp]

end F64

structure FiniteF64 where
  val : F64
  finite : val.IsFinite
  deriving DecidableEq

namespace FiniteF64

theorem val_injective : Function.Injective val := by
  rintro ⟨x, _⟩ ⟨y, _⟩ h
  simpa using h

instance : LeBytes FiniteF64 where
  toLeBytes x := x.val.toLeBytes
  length_toLeBytes x := LeBytes.length_toLeBytes x.val
  toLeBytes_injective := F64.toLeBytes_injective.comp val_injective

instance : ExactValue FiniteF64 := ⟨fun x => x.val.value⟩

instance : Zero FiniteF64 := ⟨⟨0, by decide⟩⟩

def half : FiniteF64 := ⟨⟨0x3FE0000000000000⟩, by decide⟩

theorem toRat_half : ExactValue.toRat half = 1/2 := by
  have he : half.val.exponentBits = 1022 := by decide
  have hf : half.val.fractionBits = 0 := by decide
  have hn : half.val.negative = false := by decide
  change half.val.value = 1/2
  simp only [F64.value, he, hf, hn]
  norm_num

end FiniteF64
end Slakshna

import Mathlib.Data.List.Basic
import Mathlib.Tactic.Linarith

/-! Byte strings: the UTF-8 bytes of a text and its lower-case hexadecimal rendering. -/
namespace Slakshna

abbrev Bytes := List UInt8

namespace Bytes

def ofText (s : String) : Bytes := s.toUTF8.data.toList

theorem ofText_injective : Function.Injective ofText := by
  intro s t h
  apply String.toByteArray_inj.1
  exact ByteArray.ext (Array.toList_inj.1 h)

def hexDigit (n : Nat) : Char :=
  if n < 10 then Char.ofNat (48 + n) else Char.ofNat (87 + n)

theorem hexDigit_injective : ∀ m < 16, ∀ n < 16, hexDigit m = hexDigit n → m = n := by
  decide

def hexDigits : Bytes → List Char
  | [] => []
  | b :: bs => hexDigit (b.toNat / 16) :: hexDigit (b.toNat % 16) :: hexDigits bs

theorem hexDigits_injective : Function.Injective hexDigits := by
  intro bs cs h
  induction bs generalizing cs with
  | nil =>
    cases cs with
    | nil => rfl
    | cons c cs => simp [hexDigits] at h
  | cons b bs ih =>
    cases cs with
    | nil => simp [hexDigits] at h
    | cons c cs =>
      simp only [hexDigits, List.cons.injEq] at h
      obtain ⟨hhigh, hlow, htail⟩ := h
      have hb := b.toNat_lt
      have hc := c.toNat_lt
      have h1 := hexDigit_injective _ (by omega) _ (by omega) hhigh
      have h2 := hexDigit_injective _ (by omega) _ (by omega) hlow
      have hbc : b = c := UInt8.toNat_inj.1 (by omega)
      rw [hbc, ih htail]

def hexEncode (bs : Bytes) : String := String.ofList (hexDigits bs)

theorem hexEncode_injective : Function.Injective hexEncode := by
  intro bs cs h
  exact hexDigits_injective (String.ofList_injective h)

def toText? (bs : Bytes) : Option String := String.fromUTF8? ⟨bs.toArray⟩

theorem toText_ofText (s : String) : toText? (ofText s) = some s := by
  have hbytes : (⟨(ofText s).toArray⟩ : ByteArray) = s.toByteArray := ByteArray.ext (by simp [ofText])
  rw [toText?, hbytes, String.fromUTF8?, dif_pos s.isValidUTF8]
  rfl

def ofNat : ℕ → ℕ → Bytes
  | 0, _ => []
  | k + 1, n => UInt8.ofNat n :: ofNat k (n / 256)

def toNat (bs : Bytes) : ℕ := bs.foldr (fun b n => b.toNat + 256 * n) 0

@[simp] theorem length_ofNat (k n : ℕ) : (ofNat k n).length = k := by
  induction k generalizing n with
  | zero => rfl
  | succ k ih => rw [ofNat, List.length_cons, ih]

theorem toNat_ofNat {k n : ℕ} (h : n < 256 ^ k) : toNat (ofNat k n) = n := by
  induction k generalizing n with
  | zero => exact (Nat.lt_one_iff.1 h).symm
  | succ k ih =>
    have hhigh : n / 256 < 256 ^ k := Nat.div_lt_of_lt_mul (by rwa [pow_succ'] at h)
    have hrest : (ofNat k (n / 256)).foldr (fun b n => b.toNat + 256 * n) 0 = n / 256 := ih hhigh
    rw [ofNat, toNat, List.foldr_cons, hrest, UInt8.toNat_ofNat']
    omega

end Bytes
end Slakshna

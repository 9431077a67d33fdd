import Slakshna.Lib.F64

/-! JSON as a tree, with `N` for the printed numbers. How a number is printed and read is code
outside: a codec may miss the number it printed by one unit in the last place. -/
namespace Slakshna

inductive Json (N : Type) where
  | null
  | num (text : N)
  | str (s : String)
  | obj (fields : List (String × Json N))

namespace Json
variable {N : Type}

/-- The value of a key; a missing or a repeated key is an error. -/
def field? (key : String) : Json N → Option (Json N)
  | .obj fields =>
    match fields.filter (fun f => f.1 = key) with
    | [f] => some f.2
    | _ => none
  | _ => none

def str? : Json N → Option String
  | .str s => some s
  | _ => none

def strField? (key : String) (j : Json N) : Option String := (j.field? key).bind str?

end Json

structure F64Codec (N : Type) where
  print : F64 → N
  parse : N → Option F64
  near : ∀ x, x.IsFinite → ∃ y, parse (print x) = some y ∧ F64.WithinUlp x y

namespace F64Codec
variable {N : Type} (c : F64Codec N)

/-- Infinities and NaNs have no number in JSON and are written as null. -/
def encode (x : F64) : Json N := if x.IsFinite then .num (c.print x) else .null

def decode : Json N → Option F64
  | .num text => c.parse text
  | _ => none

def Survives (x : F64) : Prop := x.IsFinite ∧ c.parse (c.print x) = some x

theorem decode_encode_iff (x : F64) : c.decode (c.encode x) = some x ↔ c.Survives x := by
  by_cases h : x.IsFinite
  · simp [encode, decode, Survives, h]
  · simp [encode, decode, Survives, h]

def exact : F64Codec F64 where
  print x := x
  parse := some
  near x _ := ⟨x, rfl, F64.withinUlp_self x⟩

def drifting (x y : F64) (h : F64.WithinUlp x y) : F64Codec F64 where
  print z := z
  parse z := if z = x then some y else some z
  near z _ := by
    by_cases hz : z = x
    · exact ⟨y, by simp [hz], by rw [hz]; exact h⟩
    · exact ⟨z, by simp [hz], F64.withinUlp_self z⟩

end F64Codec
end Slakshna

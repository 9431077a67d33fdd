import Mathlib.Data.List.OfFn
import Mathlib.Logic.Equiv.Fin.Basic

/-! Three-dimensional arrays in row-major order. -/
namespace Slakshna.RowMajor
variable {X Y : Type*} {B H T : ℕ}

def place (B H T : ℕ) : (Fin B × Fin H) × Fin T ≃ Fin (B * H * T) :=
  (finProdFinEquiv.prodCongr (Equiv.refl (Fin T))).trans finProdFinEquiv

def flatten (f : Fin B → Fin H → Fin T → X) : List X :=
  List.ofFn (fun i =>
    let p := (place B H T).symm i
    f p.1.1 p.1.2 p.2)

def unflatten (l : List X) (hl : l.length = B * H * T) : Fin B → Fin H → Fin T → X :=
  fun b h t => l.get ((place B H T ((b, h), t)).cast hl.symm)

@[simp] theorem length_flatten (f : Fin B → Fin H → Fin T → X) :
    (flatten f).length = B * H * T := List.length_ofFn

theorem map_flatten (g : X → Y) (f : Fin B → Fin H → Fin T → X) :
    (flatten f).map g = flatten (fun b h t => g (f b h t)) := List.map_ofFn ..

theorem getElem?_flatten (f : Fin B → Fin H → Fin T → X) (b : Fin B) (h : Fin H) (t : Fin T) :
    (flatten f)[(place B H T ((b, h), t) : ℕ)]? = some (f b h t) := by
  rw [flatten, List.getElem?_ofFn, dif_pos (place B H T ((b, h), t)).isLt]
  simp

theorem flatten_unflatten (l : List X) (hl : l.length = B * H * T) :
    flatten (unflatten l hl) = l := by
  apply List.ext_get
  · rw [length_flatten, hl]
  · intro i _ _
    simp only [flatten, unflatten, List.get_ofFn, Prod.mk.eta, Equiv.apply_symm_apply]
    rfl

theorem flatten_injective : Function.Injective (flatten : (Fin B → Fin H → Fin T → X) → List X) := by
  intro f g h
  funext b i t
  have hentry := congrFun (List.ofFn_injective h) (place B H T ((b, i), t))
  simpa using hentry

theorem getElem?_flatten_first (f : Fin B → Fin H → Fin T → X) (hB : 0 < B) (hH : 0 < H)
    (t : Fin T) : (flatten f)[(t : ℕ)]? = some (f ⟨0, hB⟩ ⟨0, hH⟩ t) := by
  have hplace : (place B H T ((⟨0, hB⟩, ⟨0, hH⟩), t) : ℕ) = t := by
    simp [place]
  have hentry := getElem?_flatten f ⟨0, hB⟩ ⟨0, hH⟩ t
  rwa [hplace] at hentry

theorem flatten_row (f : Fin 1 → Fin 1 → Fin T → X) :
    flatten f = List.ofFn (f (Fin.last 0) (Fin.last 0)) := by
  apply List.ext_getElem?
  intro i
  by_cases hi : i < T
  · rw [getElem?_flatten_first f Nat.one_pos Nat.one_pos ⟨i, hi⟩, List.getElem?_ofFn, dif_pos hi]
    rfl
  · rw [List.getElem?_eq_none (by simpa using hi), List.getElem?_eq_none (by simpa using hi)]

end Slakshna.RowMajor

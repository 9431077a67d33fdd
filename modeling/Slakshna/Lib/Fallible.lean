import Mathlib.Data.List.Basic
import Mathlib.Data.List.Forall2

/-! Computations that may fail, taken apart: what a sequence that succeeded says of its parts. -/
namespace Slakshna.Fallible
variable {ε X Y : Type}

theorem bind_ok (x : Except ε X) (f : X → Except ε Y) (y : Y) :
    (x >>= f) = .ok y ↔ ∃ a, x = .ok a ∧ f a = .ok y := by
  cases x <;> simp [bind, Except.bind]

theorem map_ok (x : Except ε X) (f : X → Y) (y : Y) :
    x.map f = .ok y ↔ ∃ a, x = .ok a ∧ f a = y := by
  cases x <;> simp [Except.map]

@[simp] theorem ok_bind (x : X) (f : X → Except ε Y) : (Except.ok x >>= f) = f x := rfl

@[simp] theorem error_bind (e : ε) (f : X → Except ε Y) : (Except.error e >>= f) = .error e := rfl

theorem bind_pure_error (x : Except ε X) (f : X → Y) (e : ε) :
    (x >>= fun a => pure (f a)) = .error e ↔ x = .error e := by
  cases x <;> simp [bind, Except.bind, pure, Except.pure]

theorem mapM_ok {f : X → Except ε Y} {g : X → Y} {xs : List X} (h : ∀ x ∈ xs, f x = .ok (g x)) :
    xs.mapM f = .ok (xs.map g) := by
  induction xs with
  | nil => rfl
  | cons x xs ih =>
    rw [List.mapM_cons, h x List.mem_cons_self, ih (fun y hy => h y (List.mem_cons_of_mem x hy))]
    rfl

theorem foldlM_ok {P : Y → Prop} {f : Y → X → Except ε Y} {xs : List X}
    (hf : ∀ y, ∀ x ∈ xs, ∀ y', P y → f y x = .ok y' → P y') {a b : Y} (ha : P a)
    (h : xs.foldlM f a = .ok b) : P b := by
  induction xs generalizing a with
  | nil =>
    obtain rfl : a = b := Except.ok.inj h
    exact ha
  | cons x xs ih =>
    rw [List.foldlM_cons] at h
    obtain ⟨y, hy, hrest⟩ := (bind_ok _ _ _).1 h
    exact ih (fun z u hu => hf z u (List.mem_cons_of_mem x hu))
      (hf a x List.mem_cons_self y ha hy) hrest

theorem foldlM_some {P : Y → Prop} {f : Y → X → Option Y} {xs : List X}
    (hf : ∀ y, ∀ x ∈ xs, ∀ y', P y → f y x = some y' → P y') {a b : Y} (ha : P a)
    (h : xs.foldlM f a = some b) : P b := by
  induction xs generalizing a with
  | nil =>
    obtain rfl : a = b := Option.some.inj h
    exact ha
  | cons x xs ih =>
    rw [List.foldlM_cons] at h
    obtain ⟨y, hy, hrest⟩ := Option.bind_eq_some_iff.1 h
    exact ih (fun z u hu => hf z u (List.mem_cons_of_mem x hu))
      (hf a x List.mem_cons_self y ha hy) hrest

theorem mapM_eq_some_iff {f : X → Option Y} {xs : List X} {ys : List Y} :
    xs.mapM f = some ys ↔ List.Forall₂ (fun x y => f x = some y) xs ys := by
  induction xs generalizing ys with
  | nil =>
    rw [List.forall₂_nil_left_iff]
    exact ⟨fun h => (Option.some.inj h).symm, fun h => h ▸ rfl⟩
  | cons x xs ih =>
    rw [List.mapM_cons]
    constructor
    · intro h
      obtain ⟨y, hx, h⟩ := Option.bind_eq_some_iff.1 h
      obtain ⟨rest, hrest, h⟩ := Option.bind_eq_some_iff.1 h
      rw [← Option.some.inj h]
      exact List.Forall₂.cons hx (ih.1 hrest)
    · rintro (_ | ⟨hx, hrest⟩)
      rw [hx, ih.2 hrest]
      rfl

end Slakshna.Fallible

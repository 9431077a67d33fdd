import Mathlib.Data.List.Induction

/-! Runs of a deterministic machine fed by a list of events, and the rule that
carries an invariant along a run whose every step meets a side condition. -/
namespace Slakshna.Run
variable {σ ε : Type*} (step : σ → ε → σ) (Ok : σ → ε → Prop)

def exec (s : σ) (es : List ε) : σ := es.foldl step s

def Along : σ → List ε → Prop
  | _, [] => True
  | s, e :: es => Ok s e ∧ Along (step s e) es

@[simp] theorem exec_nil (s : σ) : exec step s [] = s := rfl

@[simp] theorem exec_cons (s : σ) (e : ε) (es : List ε) :
    exec step s (e :: es) = exec step (step s e) es := rfl

theorem exec_append (s : σ) (es fs : List ε) :
    exec step s (es ++ fs) = exec step (exec step s es) fs := by
  simp [exec]

variable {step Ok}

theorem invariant {Inv : σ → Prop} (hstep : ∀ s e, Inv s → Ok s e → Inv (step s e))
    {s : σ} {es : List ε} (hs : Inv s) (hok : Along step Ok s es) : Inv (exec step s es) := by
  induction es generalizing s with
  | nil => exact hs
  | cons e es ih => exact ih (hstep s e hs hok.1) hok.2

theorem invariant_of_step {Inv : σ → Prop} (hstep : ∀ s e, Inv s → Inv (step s e)) {s : σ}
    (hs : Inv s) (es : List ε) : Inv (exec step s es) := by
  induction es generalizing s with
  | nil => exact hs
  | cons e es ih => exact ih (hstep s e hs)

theorem exec_iff {Inv : σ → Prop} (hstep : ∀ s e, Inv (step s e) ↔ Inv s ∧ Ok s e)
    (s : σ) (es : List ε) : Inv (exec step s es) ↔ Inv s ∧ Along step Ok s es := by
  induction es generalizing s with
  | nil => simp [Along]
  | cons e es ih => simp only [exec_cons, ih, hstep, Along, and_assoc]

theorem invariant_take {Inv : σ → Prop} (hstep : ∀ s e, Inv s → Ok s e → Inv (step s e)) {s : σ}
    {es : List ε} (hs : Inv s) (hok : Along step Ok s es) (n : ℕ) :
    Inv (exec step s (es.take n)) := by
  induction es generalizing s n with
  | nil => simpa using hs
  | cons e es ih =>
    cases n with
    | zero => exact hs
    | succ n => exact ih (hstep s e hs hok.1) hok.2 n

theorem along_of_forall (h : ∀ s e, Ok s e) (s : σ) (es : List ε) : Along step Ok s es := by
  induction es generalizing s with
  | nil => trivial
  | cons e es ih => exact ⟨h s e, ih (step s e)⟩

theorem Along.mono {Ok' : σ → ε → Prop} (h : ∀ s e, Ok s e → Ok' s e) {s : σ} {es : List ε}
    (hes : Along step Ok s es) : Along step Ok' s es := by
  induction es generalizing s with
  | nil => trivial
  | cons e es ih => exact ⟨h s e hes.1, ih hes.2⟩

theorem along_of_forall_take {Inv : σ → Prop} (hstep : ∀ s e, Inv (step s e) → Ok s e) {s : σ}
    {es : List ε} (h : ∀ n, Inv (exec step s (es.take n))) : Along step Ok s es := by
  induction es generalizing s with
  | nil => trivial
  | cons e es ih => exact ⟨hstep s e (h 1), ih (fun n => h (n + 1))⟩

theorem exec_of_not_along {Inv Lost : σ → Prop} (hstep : ∀ s e, Inv s → Ok s e → Inv (step s e))
    (hmiss : ∀ s e, Inv s → ¬Ok s e → Lost (step s e)) (hlost : ∀ s e, Lost s → Lost (step s e))
    {s : σ} {es : List ε} (hs : Inv s) (hes : ¬Along step Ok s es) : Lost (exec step s es) := by
  induction es generalizing s with
  | nil => exact absurd trivial hes
  | cons e es ih =>
    by_cases he : Ok s e
    · exact ih (hstep s e hs he) (fun h => hes ⟨he, h⟩)
    · exact invariant_of_step hlost (hmiss s e hs he) es

theorem always_iff {Inv : σ → Prop} (hstep : ∀ s e, Inv s → (Inv (step s e) ↔ Ok s e)) {s : σ}
    (hs : Inv s) (es : List ε) : (∀ n, Inv (exec step s (es.take n))) ↔ Along step Ok s es := by
  induction es generalizing s with
  | nil => simpa [Along] using hs
  | cons e es ih =>
    constructor
    · intro h
      have hone : Inv (step s e) := h 1
      exact ⟨(hstep s e hs).1 hone, (ih hone).1 (fun n => h (n + 1))⟩
    · intro h n
      cases n with
      | zero => exact hs
      | succ n => exact (ih ((hstep s e hs).2 h.1)).2 h.2 n

theorem throughout_iff {Inv : List ε → Prop} {Meets : List ε → ε → Prop} {es : List ε}
    (hnil : Inv [])
    (hstep : ∀ l e, l ++ [e] <+: es → Inv l → (Inv (l ++ [e]) ↔ Meets l e)) :
    (∀ l, l <+: es → Inv l) ↔ ∀ l e, l ++ [e] <+: es → Meets l e := by
  constructor
  · intro h l e hl
    exact (hstep l e hl (h l ((List.prefix_append l [e]).trans hl))).1 (h _ hl)
  · intro h l hl
    induction l using List.reverseRecOn with
    | nil => exact hnil
    | append_singleton l e ih =>
      exact (hstep l e hl (ih ((List.prefix_append l [e]).trans hl))).2 (h l e hl)

theorem reaches_of_measure {Inv : σ → Prop} {Allowed : ε → Prop} (Done : σ → Prop) (m : σ → ℕ)
    (h : ∀ s, Inv s → ¬Done s → ∃ e, Allowed e ∧ Inv (step s e) ∧ m (step s e) < m s) {s : σ}
    (hs : Inv s) : ∃ es, (∀ e ∈ es, Allowed e) ∧ Inv (exec step s es) ∧ Done (exec step s es) := by
  induction hm : m s using Nat.strongRecOn generalizing s with
  | ind n ih =>
    by_cases hdone : Done s
    · exact ⟨[], by simp, hs, hdone⟩
    · obtain ⟨e, he, hinv, hless⟩ := h s hs hdone
      obtain ⟨es, hes, hend⟩ := ih (m (step s e)) (hm ▸ hless) hinv rfl
      exact ⟨e :: es, List.forall_mem_cons.2 ⟨he, hes⟩, hend⟩

end Slakshna.Run

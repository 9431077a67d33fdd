import Mathlib.Data.List.Basic

/-! Machines that answer every event, and the rule by which one answers as another does. -/
namespace Slakshna.Refine
variable {σ τ ε ρ : Type*}

def run (step : σ → ε → σ × ρ) : σ → List ε → σ × List ρ
  | s, [] => (s, [])
  | s, e :: es => ((run step (step s e).1 es).1, (step s e).2 :: (run step (step s e).1 es).2)

theorem run_append (step : σ → ε → σ × ρ) (s : σ) (es fs : List ε) :
    run step s (es ++ fs) = ((run step (run step s es).1 fs).1,
      (run step s es).2 ++ (run step (run step s es).1 fs).2) := by
  induction es generalizing s with
  | nil => rfl
  | cons e es ih =>
    rw [List.cons_append, run, ih]
    rfl

theorem run_invariant {step : σ → ε → σ × ρ} {Inv : σ → Prop}
    (hstep : ∀ s e, Inv s → Inv (step s e).1) {s : σ} (hs : Inv s) (es : List ε) :
    Inv (run step s es).1 := by
  induction es generalizing s with
  | nil => exact hs
  | cons e es ih => exact ih (hstep s e hs)

/-- From related states both answer alike and go to related states. -/
def Simulates (step : σ → ε → σ × ρ) (spec : τ → ε → τ × ρ) (R : σ → τ → Prop) : Prop :=
  ∀ s t e, R s t → (step s e).2 = (spec t e).2 ∧ R (step s e).1 (spec t e).1

theorem Simulates.run {step : σ → ε → σ × ρ} {spec : τ → ε → τ × ρ} {R : σ → τ → Prop}
    (h : Simulates step spec R) {s : σ} {t : τ} (hst : R s t) (es : List ε) :
    (run step s es).2 = (run spec t es).2 ∧ R (run step s es).1 (run spec t es).1 := by
  induction es generalizing s t with
  | nil => exact ⟨rfl, hst⟩
  | cons e es ih =>
    obtain ⟨hanswer, hnext⟩ := h s t e hst
    obtain ⟨hanswers, hend⟩ := ih hnext
    exact ⟨congrArg₂ List.cons hanswer hanswers, hend⟩

end Slakshna.Refine

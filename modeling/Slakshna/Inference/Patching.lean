import Mathlib.Logic.Function.Basic
import Slakshna.Lib.Run

/-! Patchers that put themselves in the place of one method. Each keeps the forward that it found, calls
it in the end, and puts it back when it is taken off. Every engine with compression makes a patcher of
its own. -/
namespace Slakshna.Patching
variable {P : Type}

/-- What `Attention.forward` is: vLLM's own, or that of a patcher. -/
inductive Forward (P : Type) where
  | vllm
  | turboquant (patcher : P)
  deriving DecidableEq

structure Patcher (P : Type) where
  originalForward : Option (Forward P)
  patched : Bool

structure State (P : Type) where
  forward : Forward P
  patcher : P → Patcher P

inductive Op (P : Type) where
  | patch (i : P)
  | unpatch (i : P)

def State.initial : State P := ⟨.vllm, fun _ => ⟨none, false⟩⟩

section Step
variable [DecidableEq P]

def step (s : State P) : Op P → State P
  | .patch i =>
    if (s.patcher i).patched then s
    else ⟨.turboquant i, Function.update s.patcher i ⟨some s.forward, true⟩⟩
  | .unpatch i =>
    match (s.patcher i).patched, (s.patcher i).originalForward with
    | true, some original =>
      ⟨original, Function.update s.patcher i { s.patcher i with patched := false }⟩
    | _, _ => s

end Step

inductive Passes (patcher : P → Patcher P) : Forward P → List P → Prop where
  | vllm : Passes patcher .vllm []
  | turboquant {i : P} {f : Forward P} {is : List P} (h : (patcher i).originalForward = some f)
      (hf : Passes patcher f is) : Passes patcher (.turboquant i) (i :: is)

def Layered (s : State P) : Prop :=
  ∃ is, Passes s.patcher s.forward is ∧ is.Nodup ∧ ∀ i, i ∈ is ↔ (s.patcher i).patched = true

def Outermost (s : State P) : Op P → Prop
  | .patch _ => True
  | .unpatch i => (s.patcher i).patched = true → s.forward = .turboquant i

section Passes
variable {patcher : P → Patcher P} {f : Forward P} {is : List P}

theorem Passes.unique (h : Passes patcher f is) {js : List P} (h' : Passes patcher f js) :
    is = js := by
  induction h generalizing js with
  | vllm =>
    cases h'
    rfl
  | turboquant hf _ ih =>
    cases h' with
    | turboquant hf' hjs =>
      rw [hf] at hf'
      cases hf'
      rw [ih hjs]

theorem Passes.head {i : P} (h : Passes patcher f (i :: is)) : f = .turboquant i := by
  cases h
  rfl

theorem Passes.suffix (h : Passes patcher f is) {i : P} (hi : i ∈ is) :
    ∃ before rest original, is = before ++ i :: rest ∧
      (patcher i).originalForward = some original ∧ Passes patcher original rest := by
  induction h with
  | vllm => cases hi
  | @turboquant j f is hf hrest ih =>
    rcases List.mem_cons.1 hi with rfl | hi
    · exact ⟨[], is, f, rfl, hf, hrest⟩
    · obtain ⟨before, rest, original, rfl, horiginal, hpasses⟩ := ih hi
      exact ⟨j :: before, rest, original, rfl, horiginal, hpasses⟩

theorem Passes.congr (h : Passes patcher f is) {patcher' : P → Patcher P}
    (hsame : ∀ i ∈ is, (patcher' i).originalForward = (patcher i).originalForward) :
    Passes patcher' f is := by
  induction h with
  | vllm => exact .vllm
  | @turboquant j f is hf _ ih =>
    refine .turboquant ?_ (ih (fun i hi => hsame i (List.mem_cons_of_mem j hi)))
    rw [hsame j List.mem_cons_self, hf]

theorem not_passes_self {i : P} (h : (patcher i).originalForward = some (.turboquant i)) :
    ¬Passes patcher (.turboquant i) is := by
  intro hpasses
  cases hpasses with
  | @turboquant _ f rest hf hrest =>
    rw [h] at hf
    cases hf
    have hsame := hrest.unique (.turboquant h hrest)
    exact absurd (congrArg List.length hsame) (by simp)

end Passes

section Layers
variable [DecidableEq P] {s : State P}

omit [DecidableEq P] in
theorem layered_initial : Layered (State.initial : State P) :=
  ⟨[], .vllm, .nil, by simp [State.initial]⟩

theorem layered_patch (h : Layered s) (i : P) : Layered (step s (.patch i)) := by
  obtain ⟨is, hpasses, hnodup, hmem⟩ := h
  rw [step]
  split
  next => exact ⟨is, hpasses, hnodup, hmem⟩
  next hoff =>
    have hi : i ∉ is := fun hin => hoff ((hmem i).1 hin)
    refine ⟨i :: is, .turboquant (by simp) (hpasses.congr fun j hj => ?_),
      List.nodup_cons.2 ⟨hi, hnodup⟩, fun j => ?_⟩
    · have hne : j ≠ i := by
        rintro rfl
        exact hi hj
      dsimp only
      rw [Function.update_of_ne hne]
    · by_cases hj : j = i
      · subst hj
        simp
      · simp [hj, hmem j]

theorem layered_unpatch_iff (h : Layered s) (i : P) :
    Layered (step s (.unpatch i)) ↔ Outermost s (.unpatch i) := by
  obtain ⟨is, hpasses, hnodup, hmem⟩ := h
  cases hon : (s.patcher i).patched with
  | false =>
    have hsame : step s (.unpatch i) = s := by simp [step, hon]
    rw [hsame, Outermost, hon]
    exact iff_of_true ⟨is, hpasses, hnodup, hmem⟩ (by simp)
  | true =>
    obtain ⟨before, rest, original, rfl, horiginal, hrest⟩ := hpasses.suffix ((hmem i).2 hon)
    have hstep : step s (.unpatch i) =
        ⟨original, Function.update s.patcher i { s.patcher i with patched := false }⟩ := by
      simp [step, hon, horiginal]
    have hrest' : Passes (step s (.unpatch i)).patcher original rest := by
      rw [hstep]
      refine hrest.congr (fun j _ => ?_)
      by_cases hj : j = i
      · subst hj
        simp
      · simp [hj]
    obtain ⟨_, hnodup', hdisjoint⟩ := List.nodup_append.1 hnodup
    have hi : i ∉ rest := (List.nodup_cons.1 hnodup').1
    have hbefore : before = [] ↔ s.forward = .turboquant i := by
      cases before with
      | nil => exact iff_of_true rfl hpasses.head
      | cons j before =>
        have hj : j ≠ i := hdisjoint j List.mem_cons_self i List.mem_cons_self
        refine iff_of_false (List.cons_ne_nil j before) (fun hforward => ?_)
        rw [hpasses.head] at hforward
        exact hj (Forward.turboquant.inj hforward)
    have houter : Outermost s (.unpatch i) ↔ before = [] := by
      rw [hbefore]
      exact ⟨fun h => h hon, fun h _ => h⟩
    rw [houter]
    constructor
    · rintro ⟨js, hjs, _, hjmem⟩
      rw [hstep] at hjs hjmem hrest'
      obtain rfl := hjs.unique hrest'
      cases before with
      | nil => rfl
      | cons j before =>
        have hj : j ≠ i := hdisjoint j List.mem_cons_self i List.mem_cons_self
        have hjon : (s.patcher j).patched = true := (hmem j).1 (by simp)
        have hjrest : j ∈ js := (hjmem j).2 (by simpa [hj] using hjon)
        exact absurd rfl (hdisjoint j List.mem_cons_self j (List.mem_cons_of_mem i hjrest))
    · rintro rfl
      refine ⟨rest, by rw [hstep] at hrest' ⊢; exact hrest', (List.nodup_cons.1 hnodup').2,
        fun j => ?_⟩
      rw [hstep]
      by_cases hj : j = i
      · subst hj
        simp [hi]
      · have hmemj := hmem j
        simp only [List.nil_append, List.mem_cons, hj, false_or] at hmemj
        simp [hj, hmemj]

/-- In a run that starts with vLLM's own forward, every state passes each patcher that is on, and no
other, exactly if patchers are taken off in the order opposite to that in which they were put on. -/
theorem layered_throughout_iff (ops : List (Op P)) :
    (∀ l, l <+: ops → Layered (Run.exec step State.initial l)) ↔
      ∀ l op, l ++ [op] <+: ops → Outermost (Run.exec step State.initial l) op := by
  apply Run.throughout_iff layered_initial
  intro l op _ hl
  rw [Run.exec_append]
  cases op with
  | patch i => exact iff_of_true (layered_patch hl i) trivial
  | unpatch i => exact layered_unpatch_iff hl i

omit [DecidableEq P] in
theorem Layered.restored (h : Layered s) (hoff : ∀ i, (s.patcher i).patched = false) :
    s.forward = .vllm := by
  obtain ⟨is, hpasses, _, hmem⟩ := h
  cases is with
  | nil =>
    cases hforward : s.forward with
    | vllm => rfl
    | turboquant i =>
      rw [hforward] at hpasses
      cases hpasses
  | cons i is => exact absurd ((hmem i).1 List.mem_cons_self) (by simp [hoff i])

end Layers

def crossed : List (Op Bool) := [.patch false, .patch true, .unpatch false, .unpatch true]

theorem crossed_stale :
    (Run.exec step State.initial crossed).forward = .turboquant false ∧
      ∀ is, ¬Passes (Run.exec step State.initial (crossed ++ [.patch false])).patcher
        (Run.exec step State.initial (crossed ++ [.patch false])).forward is :=
  ⟨by decide, fun _ => not_passes_self (i := false) (by decide)⟩

end Slakshna.Patching

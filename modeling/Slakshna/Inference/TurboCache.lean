import Slakshna.Lib.Refine
import Slakshna.Inference.LayerStore
import Slakshna.Inference.StaticCache

/-! The quantised cache with all its layers, over any calls that a model makes of it, and where it
agrees with the static one. -/
namespace Slakshna.KVCache
variable {V W E : Type} {B H : ℕ}

inductive KVCall (B H : ℕ) (V : Type) where
  | update (layerIdx : ℕ) (states : List (Slab B H (V × V)))
  | advance (n : ℕ)
  | reset

structure Answer (W : Type) where
  seqLen : ℕ
  returned : Option (Except KVError (Chunk (W × W)))

def Cache.call (dt : Dtype V W) (c : Cache W E) : KVCall B H V → Cache W E × Answer W
  | .update layerIdx states =>
    match c.update dt ⟨B, H, states⟩ layerIdx with
    | .error e => (c, ⟨c.getSeqLength, some (.error e)⟩)
    | .ok (c', out) => (c', ⟨c'.getSeqLength, some (.ok out)⟩)
  | .advance n => (c.advance n, ⟨(c.advance n).getSeqLength, none⟩)
  | .reset => (c.reset dt, ⟨(c.reset dt).getSeqLength, none⟩)

/-- What the quantised cache is for: it keeps every token that a layer was given since the last reset,
and reads the last `window` of them as they are. -/
structure Ledger (B H : ℕ) (W : Type) where
  seqLen : ℕ
  tokens : ℕ → List (Slab B H (W × W))

def Ledger.empty : Ledger B H W := ⟨0, fun _ => []⟩

def Ledger.call (dt : Dtype V W) (quantizer : ℕ → Quantizer W E) (numLayers window : ℕ)
    (t : Ledger B H W) : KVCall B H V → Ledger B H W × Answer W
  | .update layerIdx states =>
    if layerIdx < numLayers then
      let zs := t.tokens layerIdx ++ castTokens dt states
      ({ t with tokens := Function.update t.tokens layerIdx zs }, ⟨t.seqLen,
        some (.ok ⟨B, H, reading (quantizer layerIdx) (zs.length - window) zs⟩)⟩)
    else (t, ⟨t.seqLen, some (.error .layerIndex)⟩)
  | .advance n => ({ t with seqLen := t.seqLen + n }, ⟨t.seqLen + n, none⟩)
  | .reset => (Ledger.empty, ⟨0, none⟩)

structure Keeps (quantizer : ℕ → Quantizer W E) (numLayers window : ℕ) (t : Ledger B H W)
    (c : TurboQuantKVCache W E) : Prop where
  residual : c.residualWindow = window
  counter : c.seqLen = t.seqLen
  layers : c.stores.length = numLayers
  store : ∀ l (s : LayerKVStore W E), c.stores[l]? = some s →
    s.Holds (quantizer l) (t.tokens l) ((t.tokens l).length - window)

section Layers
variable {dt : Dtype V W} {quantizer : ℕ → Quantizer W E} {numLayers window : ℕ}
  {t : Ledger B H W} {c : TurboQuantKVCache W E}

theorem keeps_init (quantizers : Quantizers W E) (cfg : TurboQuantConfig) (L maxSeqLen : ℕ) :
    Keeps (TurboQuantKVCache.layerQuantizer quantizers cfg L) L cfg.residualWindow
      (Ledger.empty : Ledger B H W) (TurboQuantKVCache.init quantizers cfg L maxSeqLen) where
  residual := rfl
  counter := rfl
  layers := by rw [TurboQuantKVCache.init, List.length_map, List.length_range]
  store := by
    intro l s hs
    rw [TurboQuantKVCache.init, List.getElem?_map] at hs
    obtain ⟨i, hi, rfl⟩ := Option.map_eq_some_iff.1 hs
    obtain ⟨hl, rfl⟩ := List.getElem?_eq_some_iff.1 hi
    rw [List.getElem_range, Ledger.empty, List.length_nil, Nat.zero_sub]
    exact LayerKVStore.holds_init _ _

theorem Keeps.update_ok (h : Keeps quantizer numLayers window t c) {l : ℕ} (hl : l < numLayers)
    (dt : Dtype V W) (ys : List (Slab B H (V × V))) :
    let zs := t.tokens l ++ castTokens dt ys
    ∃ c', c.update dt ⟨B, H, ys⟩ l =
        .ok (c', ⟨B, H, reading (quantizer l) (zs.length - window) zs⟩) ∧
      Keeps quantizer numLayers window { t with tokens := Function.update t.tokens l zs } c' := by
  intro zs
  obtain ⟨s, hget⟩ : ∃ s, c.stores[l]? = some s :=
    ⟨_, List.getElem?_eq_getElem (h.layers ▸ hl)⟩
  obtain ⟨s', hstore, hholds, _⟩ := (h.store l _ hget).step dt ys window
  have hmax : max ((t.tokens l).length - window) (zs.length - window) = zs.length - window := by
    simp only [zs, List.length_append]
    omega
  rw [hmax] at hstore hholds
  refine ⟨{ c with stores := c.stores.set l s' }, ?_, h.residual, h.counter, ?_, ?_⟩
  · rw [TurboQuantKVCache.update, hget]
    simp only [h.residual, hstore, bind, Except.bind]
    rfl
  · rw [List.length_set, h.layers]
  · intro k s hk
    by_cases hkl : k = l
    · subst hkl
      rw [List.getElem?_set_self (h.layers ▸ hl)] at hk
      rw [← Option.some.inj hk]
      dsimp only
      rw [Function.update_self]
      exact hholds
    · rw [List.getElem?_set_ne (Ne.symm hkl)] at hk
      dsimp only
      rw [Function.update_of_ne hkl]
      exact h.store k s hk

theorem Keeps.update_error (h : Keeps quantizer numLayers window t c) {l : ℕ}
    (hl : ¬l < numLayers) (dt : Dtype V W) (ys : List (Slab B H (V × V))) :
    c.update dt ⟨B, H, ys⟩ l = .error .layerIndex := by
  have hnone : c.stores[l]? = none := List.getElem?_eq_none (h.layers ▸ not_lt.1 hl)
  rw [TurboQuantKVCache.update, hnone]

theorem Keeps.reset (h : Keeps quantizer numLayers window t c) :
    Keeps quantizer numLayers window (Ledger.empty : Ledger B H W) c.reset where
  residual := h.residual
  counter := rfl
  layers := (List.length_map _).trans h.layers
  store := by
    intro l s hs
    rw [TurboQuantKVCache.reset, List.getElem?_map] at hs
    obtain ⟨s₀, hs₀, rfl⟩ := Option.map_eq_some_iff.1 hs
    rw [Ledger.empty, List.length_nil, Nat.zero_sub]
    exact (h.store l s₀ hs₀).reset

theorem turboQuant_simulates (dt : Dtype V W) (quantizer : ℕ → Quantizer W E)
    (numLayers window : ℕ) :
    Refine.Simulates (Cache.call (B := B) (H := H) dt) (Ledger.call dt quantizer numLayers window)
      (fun c t => ∃ c', c = .turboQuant c' ∧ Keeps quantizer numLayers window t c') := by
  intro c t call h
  obtain ⟨c, rfl, hkeeps⟩ := h
  cases call with
  | update l ys =>
    by_cases hl : l < numLayers
    · obtain ⟨c', hupdate, hkeeps'⟩ := hkeeps.update_ok hl dt ys
      have hcall : (Cache.turboQuant c).update dt ⟨B, H, ys⟩ l = .ok (.turboQuant c',
          ⟨B, H, reading (quantizer l) ((t.tokens l ++ castTokens dt ys).length - window)
            (t.tokens l ++ castTokens dt ys)⟩) := by
        rw [Cache.update, hupdate]
        rfl
      rw [Cache.call, hcall, Ledger.call, if_pos hl]
      exact ⟨congrArg (Answer.mk · _) hkeeps'.counter, c', rfl, hkeeps'⟩
    · have hcall : (Cache.turboQuant c).update dt ⟨B, H, ys⟩ l = .error .layerIndex := by
        rw [Cache.update, hkeeps.update_error hl dt ys]
        rfl
      rw [Cache.call, hcall, Ledger.call, if_neg hl]
      exact ⟨congrArg (Answer.mk · _) hkeeps.counter, c, rfl, hkeeps⟩
  | advance n =>
    have hseqLen : c.seqLen + n = t.seqLen + n := congrArg (· + n) hkeeps.counter
    exact ⟨congrArg (Answer.mk · none) hseqLen, _, rfl, hkeeps.residual, hseqLen, hkeeps.layers,
      hkeeps.store⟩
  | reset => exact ⟨rfl, _, rfl, hkeeps.reset⟩

end Layers

/-- Over any calls, for any layers in any order and of any lengths, with resets between: an update
returns all that its layer was given since the last reset, the last tokens of it as they are and those
before as the layer's own codes decode, and none raises but for a layer that is not there. -/
theorem turboQuant_refines (dt : Dtype V W) (quantizers : Quantizers W E) (cfg : TurboQuantConfig)
    (L maxSeqLen : ℕ) (calls : List (KVCall B H V)) :
    (Refine.run (Cache.call dt) (.turboQuant (.init quantizers cfg L maxSeqLen)) calls).2 =
      (Refine.run (Ledger.call dt (TurboQuantKVCache.layerQuantizer quantizers cfg L) L
        cfg.residualWindow) Ledger.empty calls).2 :=
  ((turboQuant_simulates dt _ L cfg.residualWindow).run
    ⟨_, rfl, keeps_init quantizers cfg L maxSeqLen⟩ calls).1

def turboQuantDriven (dt : Dtype V W) : Driven (TurboQuantKVCache W E) B H V W where
  update := fun c l ys => c.update dt ⟨B, H, ys⟩ l
  advance := TurboQuantKVCache.advance
  reset := TurboQuantKVCache.reset

def NoneRaises (outs : Returns W) : Prop := ∀ e l, (l, .error e) ∉ outs

section Agree
variable {L maxSeqLen window : ℕ} {quantizer : ℕ → Quantizer W E} {t : Ledger B H W}
  {c : TurboQuantKVCache W E}

theorem pass_agrees (dt : Dtype V W) (hroom : maxSeqLen ≤ window) (p : Pass L B H V)
    (order : List ℕ) (hL : ∀ l ∈ order, l < L) (h : Keeps quantizer L window t c)
    (hnone : NoneRaises ((appendOnly dt maxSeqLen).pass p order t.tokens).2) :
    ((turboQuantDriven dt).pass p order c).2 =
        ((appendOnly dt maxSeqLen).pass p order t.tokens).2 ∧
      ∃ t', Keeps quantizer L window t' ((turboQuantDriven dt).pass p order c).1 ∧
        t'.tokens = ((appendOnly dt maxSeqLen).pass p order t.tokens).1 := by
  induction order generalizing t c with
  | nil =>
    have hseqLen : c.seqLen + p.len = t.seqLen + p.len := congrArg (· + p.len) h.counter
    exact ⟨rfl, ⟨t.seqLen + p.len, t.tokens⟩, ⟨h.residual, hseqLen, h.layers, h.store⟩, rfl⟩
  | cons l rest ih =>
    obtain ⟨hl, hrest⟩ := List.forall_mem_cons.1 hL
    by_cases hfull : (t.tokens l).length + (p.states l).length > maxSeqLen
    · refine absurd ?_ (hnone (.overflow (t.tokens l).length (p.states l).length maxSeqLen) l)
      simp [Driven.pass, appendOnly, hfull]
    · have happend : (appendOnly dt maxSeqLen).update t.tokens l (p.states l) =
          .ok (Function.update t.tokens l (t.tokens l ++ castTokens dt (p.states l)),
            ⟨B, H, t.tokens l ++ castTokens dt (p.states l)⟩) := if_neg hfull
      obtain ⟨c', hupdate, hkeeps⟩ := h.update_ok hl dt (p.states l)
      have hall : (t.tokens l ++ castTokens dt (p.states l)).length - window = 0 := by
        rw [List.length_append, castTokens, List.length_map]
        omega
      have hturbo : (turboQuantDriven dt).update c l (p.states l) =
          .ok (c', ⟨B, H, t.tokens l ++ castTokens dt (p.states l)⟩) := by
        rw [hall] at hupdate
        exact hupdate
      simp only [Driven.pass, happend, hturbo] at hnone ⊢
      obtain ⟨hanswers, hend⟩ := ih hrest hkeeps
        (fun e k hmem => hnone e k (List.mem_cons_of_mem _ hmem))
      exact ⟨congrArg (List.cons _) hanswers, hend⟩

theorem step_agrees (dt : Dtype V W) (hroom : maxSeqLen ≤ window) (d : Drive L B H V)
    (h : Keeps quantizer L window t c)
    (hnone : NoneRaises ((appendOnly dt maxSeqLen).step t.tokens d).2) :
    ((turboQuantDriven dt).step c d).2 = ((appendOnly dt maxSeqLen).step t.tokens d).2 ∧
      ∃ t', Keeps quantizer L window t' ((turboQuantDriven dt).step c d).1 ∧
        t'.tokens = ((appendOnly dt maxSeqLen).step t.tokens d).1 := by
  cases d with
  | reset => exact ⟨rfl, Ledger.empty, h.reset, rfl⟩
  | pass p => exact pass_agrees dt hroom p p.order (fun l hl => (p.mem_order l).1 hl) h hnone

theorem run_agrees (dt : Dtype V W) (hroom : maxSeqLen ≤ window) (ds : List (Drive L B H V))
    (h : Keeps quantizer L window t c)
    (hnone : ∀ outs ∈ ((appendOnly dt maxSeqLen).run t.tokens ds).2, NoneRaises outs) :
    ((turboQuantDriven dt).run c ds).2 = ((appendOnly dt maxSeqLen).run t.tokens ds).2 := by
  induction ds generalizing t c with
  | nil => rfl
  | cons d ds ih =>
    simp only [Driven.run] at hnone ⊢
    obtain ⟨hfirst, hrest⟩ := List.forall_mem_cons.1 hnone
    obtain ⟨hanswer, t', hkeeps, htokens⟩ := step_agrees dt hroom d h hfirst
    rw [← htokens] at hrest ⊢
    exact congrArg₂ List.cons hanswer (ih hkeeps hrest)

end Agree

/-- Over any passes and resets: with a window no shorter than what the static cache can hold, the
quantised cache returns what the static one returns, as long as that has room. -/
theorem turboQuant_agrees_static (dt : Dtype V W) (quantizers : Quantizers W E)
    (cfg : TurboQuantConfig) (L maxSeqLen slots : ℕ) (hroom : maxSeqLen ≤ cfg.residualWindow)
    (ds : List (Drive L B H V))
    (hnone : ∀ outs ∈ ((staticDriven dt).run (StaticKVCache.init dt L B H maxSeqLen) ds).2,
      NoneRaises outs) :
    ((turboQuantDriven dt).run (TurboQuantKVCache.init quantizers cfg L slots) ds).2 =
      ((staticDriven dt).run (StaticKVCache.init dt L B H maxSeqLen) ds).2 := by
  have hstatic := ((aligned_init dt L B H maxSeqLen).run dt ds).1
  rw [hstatic] at hnone ⊢
  exact run_agrees dt hroom ds (keeps_init quantizers cfg L slots) hnone

def sampleDrive : List (Drive 1 1 1 ℕ) :=
  [.pass (samplePass [5, 6]), .pass (samplePass [7]), .reset, .pass (samplePass [8])]

theorem noneRaises_sample : ∀ outs ∈ ((staticDriven sampleDtype).run
    (StaticKVCache.init sampleDtype 1 1 1 4) sampleDrive).2, NoneRaises outs := by
  have hok : ∀ outs ∈ ((staticDriven sampleDtype).run
      (StaticKVCache.init sampleDtype 1 1 1 4) sampleDrive).2, ∀ r ∈ outs, r.2.isOk = true := by
    decide +kernel
  intro outs houts e l hmem
  cases hok outs houts _ hmem

theorem turboQuant_agrees_sample :
    ((turboQuantDriven sampleDtype).run (TurboQuantKVCache.init sampleQuantizers ⟨4, 2, 4, 0⟩ 1 4)
        sampleDrive).2 =
      ((staticDriven sampleDtype).run (StaticKVCache.init sampleDtype 1 1 1 4) sampleDrive).2 :=
  turboQuant_agrees_static sampleDtype sampleQuantizers ⟨4, 2, 4, 0⟩ 1 4 4 (by decide) sampleDrive
    noneRaises_sample

end Slakshna.KVCache

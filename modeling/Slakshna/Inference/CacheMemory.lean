import Mathlib.Algebra.BigOperators.Group.List.Basic
import Mathlib.Algebra.Group.Action.Defs
import Mathlib.Algebra.Order.BigOperators.Group.List
import Mathlib.Data.List.Induction
import Mathlib.Data.Rat.Defs
import Mathlib.Algebra.Order.Field.Rat
import Mathlib.Tactic.Ring
import Slakshna.Inference.TurboCache

/-! What the stores of the quantised cache take, and what its statistics say of it. An index has two
bytes, as an element of the window. -/
namespace Slakshna.KVCache
open Fallible
variable {V W E : Type} {B H : ℕ}

namespace LayerKVStore

def nbytes (headDim : ℕ) (s : LayerKVStore W E) : ℕ :=
  let idxBytes := match s.comp with
    | none => 0
    | some c =>
      let norms := c.rows.length * (c.batch * c.heads)
      (norms * headDim + norms * headDim) * 2 + (norms + norms) * 2
  let winBytes := match s.win with
    | none => 0
    | some win =>
      let numel := win.batch * win.heads * win.tokens.length * headDim
      (numel + numel) * 2
  idxBytes + winBytes

def tokenCount {X : Type} (c : Option (Chunk X)) : ℕ := c.elim 0 (fun c => c.tokens.length)

end LayerKVStore

namespace TurboQuantKVCache

def memoryBytes (headDim : ℕ) (c : TurboQuantKVCache W E) : ℕ :=
  (c.stores.map (LayerKVStore.nbytes headDim)).sum

def actualSeq (c : TurboQuantKVCache W E) : ℕ :=
  match c.seqLen, c.stores with
  | 0, s :: _ => s.compPtr + LayerKVStore.tokenCount s.win
  | n, _ => n

structure CompressionStats where
  tqBytes : ℕ
  bf16Bytes : ℕ
  ratio : ℚ
  seqLen : ℕ

/-- `batchSize` and `numHeads` are those the cache was constructed with, not those of the tensors it was
given. -/
def compressionStats (batchSize numHeads headDim : ℕ) (c : TurboQuantKVCache W E) :
    CompressionStats :=
  let tqBytes := c.memoryBytes headDim
  let elem := batchSize * numHeads * c.actualSeq * headDim
  let bf16Bytes := 2 * 2 * c.stores.length * max elem 1
  { tqBytes := tqBytes
    bf16Bytes := bf16Bytes
    ratio := if tqBytes > 0 then (bf16Bytes : ℚ) / tqBytes else 0
    seqLen := c.actualSeq }

end TurboQuantKVCache

def grown (n : ℕ) : ℕ := n + max 128 (n / 2)

theorem grown_mono {m n : ℕ} (h : m ≤ n) : grown m ≤ grown n := by
  have hdiv : m / 2 ≤ n / 2 := Nat.div_le_div_right h
  simp only [grown]
  omega

section Growth
variable {q : Quantizer W E}

theorem storeRow_length {c c' : CompStore E} {ptr n : ℕ} {row : Fin n → E × E}
    (h : c.storeRow q ptr row = .ok c') :
    ∃ full : Bool, c'.rows.length = (if full then grown c.rows.length else c.rows.length) ∧
      (full = true → c.rows.length ≤ ptr) := by
  simp only [CompStore.storeRow] at h
  split at h
  · refine ⟨decide (ptr ≥ c.rows.length), ?_, fun hfull => of_decide_eq_true hfull⟩
    rw [← Except.ok.inj h]
    by_cases hfull : ptr ≥ c.rows.length
    · simp [hfull, grown]
    · simp [hfull]
  · cases h

theorem storeTokens_length {c : CompStore E} {ptr : ℕ} {toks : List (Slab B H (W × W))}
    {r : CompStore E × ℕ} (h : c.storeTokens q ptr toks = .ok r) :
    r.2 = ptr + toks.length ∧ r.1.rows.length ≤ max c.rows.length (grown r.2) := by
  induction toks generalizing c ptr with
  | nil =>
    rw [← Except.ok.inj h]
    exact ⟨rfl, le_max_left _ _⟩
  | cons t ts ih =>
    obtain ⟨c₁, hrow, hrest⟩ := (bind_ok _ _ _).1 h
    obtain ⟨full, hlength, hfull⟩ := storeRow_length hrow
    obtain ⟨hptr, hrows⟩ := ih hrest
    refine ⟨by rw [hptr, List.length_cons]; omega, hrows.trans (max_le ?_ (le_max_right _ _))⟩
    rw [hlength]
    cases full with
    | false => exact le_max_left _ _
    | true =>
      have hptr' : c.rows.length ≤ r.2 := (hfull rfl).trans (by omega)
      exact (grown_mono hptr').trans (le_max_right _ _)

structure Roomy (maxSeqLen peak : ℕ) (s : LayerKVStore W E) : Prop where
  made : s.maxSeqLen = maxSeqLen
  allocated : s.win.isSome → s.comp.isSome
  rows : ∀ c, s.comp = some c → c.rows.length ≤ max maxSeqLen (grown peak)

variable {maxSeqLen peak : ℕ} {s : LayerKVStore W E}

theorem Roomy.alloc (h : Roomy maxSeqLen peak s) (batch heads : ℕ) :
    (s.lazyAlloc batch heads).rows.length ≤ max maxSeqLen (grown peak) := by
  rw [LayerKVStore.lazyAlloc]
  cases hcomp : s.comp with
  | none => simp [CompStore.init, h.made]
  | some c => exact h.rows c hcomp

theorem Roomy.mono (h : Roomy maxSeqLen peak s) {peak' : ℕ} (hpeak : peak ≤ peak') :
    Roomy maxSeqLen peak' s :=
  ⟨h.made, h.allocated, fun c hc => (h.rows c hc).trans (max_le_max_left _ (grown_mono hpeak))⟩

theorem Roomy.storeAndGet (h : Roomy maxSeqLen peak s) {dt : Dtype V W}
    {states : Chunk (V × V)} {window : ℕ} {r : LayerKVStore W E × Chunk (W × W)}
    (hcall : s.storeAndGet dt states window = .ok r) (hpeak : r.1.compPtr ≤ peak) :
    Roomy maxSeqLen peak r.1 := by
  have halloc := h.alloc states.batch states.heads
  simp only [LayerKVStore.storeAndGet] at hcall
  obtain ⟨win, _, hcall⟩ := (bind_ok _ _ _).1 hcall
  split at hcall
  · obtain ⟨s', hs', hcall⟩ := (bind_ok _ _ _).1 hcall
    obtain ⟨full, _, hcall⟩ := (bind_ok _ _ _).1 hcall
    rw [← Except.ok.inj hcall] at hpeak ⊢
    simp only [LayerKVStore.compressChunk] at hs'
    obtain ⟨stored, hstore, hs'⟩ := (bind_ok _ _ _).1 hs'
    obtain ⟨hptr, hrows⟩ := storeTokens_length hstore
    have hle : stored.2 ≤ peak → stored.1.rows.length ≤ max maxSeqLen (grown peak) :=
      fun hp => hrows.trans (max_le halloc ((grown_mono hp).trans (le_max_right _ _)))
    split at hs'
    · obtain ⟨dec, _, hs'⟩ := (bind_ok _ _ _).1 hs'
      rw [← Except.ok.inj hs'] at hpeak ⊢
      exact ⟨h.made, fun _ => rfl, fun c hc => Option.some.inj hc ▸ hle hpeak⟩
    · rw [← Except.ok.inj hs'] at hpeak ⊢
      exact ⟨h.made, fun _ => rfl, fun c hc => Option.some.inj hc ▸ hle hpeak⟩
  · obtain ⟨s', hs', hcall⟩ := (bind_ok _ _ _).1 hcall
    obtain ⟨full, _, hcall⟩ := (bind_ok _ _ _).1 hcall
    rw [← Except.ok.inj hcall, ← Except.ok.inj hs']
    exact ⟨h.made, fun _ => rfl, fun c hc => Option.some.inj hc ▸ halloc⟩

theorem Roomy.reset (h : Roomy maxSeqLen peak s) : Roomy maxSeqLen peak s.reset where
  made := h.made
  allocated := fun hwin => absurd hwin (by simp [LayerKVStore.reset])
  rows := by
    intro c hc
    obtain ⟨c₀, hc₀, rfl⟩ := Option.map_eq_some_iff.1 hc
    rw [List.length_map]
    exact h.rows c₀ hc₀

end Growth

/-! A store after the tokens `xs`, of which `n` have left the window. -/

section Store
variable {q : Quantizer W E} {xs : List (Slab B H (W × W))} {n : ℕ} {s : LayerKVStore W E}

theorem LayerKVStore.Holds.comp_shape (h : s.Holds q xs n) {c : CompStore E}
    (hc : s.comp = some c) : ∃ rows, c = ⟨B, H, rows⟩ ∧ n ≤ rows.length := by
  obtain ⟨rows, halloc, hrows⟩ := h.stored
  rw [LayerKVStore.lazyAlloc, hc] at halloc
  have hlength := congrArg List.length hrows
  rw [List.length_take, List.length_map, List.length_take_of_le h.le] at hlength
  exact ⟨rows, halloc, by omega⟩

theorem LayerKVStore.Holds.win_count (h : s.Holds q xs n) :
    LayerKVStore.tokenCount s.win = xs.length - n := by
  cases h.win with
  | inl hsome =>
    rw [hsome]
    exact List.length_drop
  | inr hnone =>
    rw [hnone.1, hnone.2]
    exact (Nat.zero_sub n).symm

theorem LayerKVStore.Holds.full_count (h : s.Holds q xs n) :
    LayerKVStore.tokenCount s.dec + LayerKVStore.tokenCount s.win = xs.length := by
  have hdec : LayerKVStore.tokenCount s.dec = n := by
    rw [h.dec]
    by_cases hn : n = 0
    · rw [if_pos hn, hn]
      rfl
    · rw [if_neg hn]
      simp [LayerKVStore.tokenCount, h.le]
  rw [hdec, h.win_count]
  exact Nat.add_sub_cancel' h.le

theorem LayerKVStore.Holds.nbytes_eq (h : s.Holds q xs n) (headDim : ℕ) {c : CompStore E}
    (hc : s.comp = some c) : s.nbytes headDim =
      4 * (B * H) * ((headDim + 1) * c.rows.length + headDim * (xs.length - n)) := by
  obtain ⟨rows, rfl, _⟩ := h.comp_shape hc
  have hcount := h.win_count
  cases h.win with
  | inl hsome =>
    rw [LayerKVStore.nbytes, hc, hsome]
    dsimp only
    rw [List.length_drop]
    ring
  | inr hnone =>
    rw [LayerKVStore.nbytes, hc, hnone.1]
    dsimp only
    rw [hnone.2, List.length_nil, Nat.zero_sub]
    ring

end Store

section Calls
variable {dt : Dtype V W} {quantizer : ℕ → Quantizer W E} {L window maxSeqLen : ℕ}

inductive StoreStep (dt : Dtype V W) (B H window : ℕ) (s : LayerKVStore W E) :
    LayerKVStore W E → Prop where
  | still : StoreStep dt B H window s s
  | reset : StoreStep dt B H window s s.reset
  | update (ys : List (Slab B H (V × V))) (s' : LayerKVStore W E) (full : Chunk (W × W))
      (h : s.storeAndGet dt ⟨B, H, ys⟩ window = .ok (s', full)) : StoreStep dt B H window s s'

theorem storeStep (dt : Dtype V W) (c : TurboQuantKVCache W E) (call : KVCall B H V)
    {c' : TurboQuantKVCache W E} (h : ((Cache.turboQuant c).call dt call).1 = .turboQuant c')
    {l : ℕ} {s' : LayerKVStore W E} (hs' : c'.stores[l]? = some s') :
    ∃ s, c.stores[l]? = some s ∧ StoreStep dt B H c.residualWindow s s' := by
  cases call with
  | update k ys =>
    simp only [Cache.call, Cache.update, TurboQuantKVCache.update] at h
    cases hk : c.stores[k]? with
    | none =>
      rw [hk] at h
      obtain rfl : c = c' := Cache.turboQuant.inj h
      exact ⟨s', hs', .still⟩
    | some s =>
      rw [hk] at h
      cases hcall : s.storeAndGet dt ⟨B, H, ys⟩ c.residualWindow with
      | error e =>
        simp only [hcall, bind, Except.bind, Except.map] at h
        obtain rfl : c = c' := Cache.turboQuant.inj h
        exact ⟨s', hs', .still⟩
      | ok r =>
        simp only [hcall, bind, Except.bind, Except.map] at h
        obtain rfl : { c with stores := c.stores.set k r.1 } = c' := Cache.turboQuant.inj h
        by_cases hkl : k = l
        · subst hkl
          rw [List.getElem?_set_self (List.getElem?_eq_some_iff.1 hk).1] at hs'
          exact ⟨s, hk, Option.some.inj hs' ▸ .update ys r.1 r.2 hcall⟩
        · rw [List.getElem?_set_ne hkl] at hs'
          exact ⟨s', hs', .still⟩
  | advance n =>
    obtain rfl : c.advance n = c' := Cache.turboQuant.inj h
    exact ⟨s', hs', .still⟩
  | reset =>
    obtain rfl : c.reset = c' := Cache.turboQuant.inj h
    rw [TurboQuantKVCache.reset, List.getElem?_map] at hs'
    obtain ⟨s, hs, rfl⟩ := Option.map_eq_some_iff.1 hs'
    exact ⟨s, hs, .reset⟩

def ledgerAfter (dt : Dtype V W) (quantizer : ℕ → Quantizer W E) (L window : ℕ)
    (calls : List (KVCall B H V)) : Ledger B H W :=
  (Refine.run (Ledger.call dt quantizer L window) Ledger.empty calls).1

theorem layers_roomy (dt : Dtype V W) (quantizers : Quantizers W E) (cfg : TurboQuantConfig)
    (L maxSeqLen : ℕ) (calls : List (KVCall B H V)) :
    let ledger := ledgerAfter dt (TurboQuantKVCache.layerQuantizer quantizers cfg L) L
      cfg.residualWindow
    ∃ c, (Refine.run (Cache.call dt) (.turboQuant (.init quantizers cfg L maxSeqLen)) calls).1 =
        .turboQuant c ∧
      Keeps (TurboQuantKVCache.layerQuantizer quantizers cfg L) L cfg.residualWindow
        (ledger calls) c ∧
      ∀ l s, c.stores[l]? = some s → ∃ before, before <+: calls ∧
        Roomy maxSeqLen (((ledger before).tokens l).length - cfg.residualWindow) s := by
  intro ledger
  induction calls using List.reverseRecOn with
  | nil =>
    refine ⟨_, rfl, keeps_init quantizers cfg L maxSeqLen, ?_⟩
    intro l s hs
    rw [TurboQuantKVCache.init, List.getElem?_map] at hs
    obtain ⟨i, hi, rfl⟩ := Option.map_eq_some_iff.1 hs
    exact ⟨[], List.nil_prefix, rfl, fun hwin => absurd hwin (by simp [LayerKVStore.init]),
      fun c hc => absurd hc (by simp [LayerKVStore.init])⟩
  | append_singleton calls call ih =>
    obtain ⟨c, hrun, hkeeps, hroomy⟩ := ih
    obtain ⟨_, c', hcall, hkeeps'⟩ := turboQuant_simulates dt
      (TurboQuantKVCache.layerQuantizer quantizers cfg L) L cfg.residualWindow (.turboQuant c)
      (ledger calls) call ⟨c, rfl, hkeeps⟩
    have hledger : ledger (calls ++ [call]) = ((ledger calls).call dt
        (TurboQuantKVCache.layerQuantizer quantizers cfg L) L cfg.residualWindow call).1 := by
      simp only [ledger, ledgerAfter, Refine.run_append]
      rfl
    refine ⟨c', ?_, hledger ▸ hkeeps', ?_⟩
    · rw [Refine.run_append, hrun]
      exact hcall
    · intro l s' hs'
      obtain ⟨s, hs, hstep⟩ := storeStep dt c call hcall hs'
      obtain ⟨before, hbefore, hroom⟩ := hroomy l s hs
      have hlonger : before <+: calls ++ [call] := hbefore.trans (List.prefix_append _ _)
      cases hstep with
      | still => exact ⟨before, hlonger, hroom⟩
      | reset => exact ⟨before, hlonger, hroom.reset⟩
      | update ys s' full hstore =>
        have hptr : s'.compPtr = ((ledger (calls ++ [call])).tokens l).length - cfg.residualWindow :=
          hledger ▸ (hkeeps'.store l s' hs').ptr
        by_cases hmore : s'.compPtr ≤ ((ledger before).tokens l).length - cfg.residualWindow
        · exact ⟨before, hlonger, hroom.storeAndGet hstore hmore⟩
        · refine ⟨calls ++ [call], List.prefix_rfl, ?_⟩
          rw [← hptr]
          exact (hroom.mono (not_le.1 hmore).le).storeAndGet hstore (le_refl _)

end Calls

/-- Over any calls: beside the arrays and the window that `nbytes` counts, each layer keeps every token
in full precision, decoded or in the window. Its arrays hold what has left the window, and are no
longer than they were made or had to grow for what had left it at some point of the run. -/
theorem turboQuant_memory (dt : Dtype V W) (quantizers : Quantizers W E) (cfg : TurboQuantConfig)
    (L maxSeqLen headDim : ℕ) (calls : List (KVCall B H V)) :
    let ledger := ledgerAfter dt (TurboQuantKVCache.layerQuantizer quantizers cfg L) L
      cfg.residualWindow
    ∃ c, (Refine.run (Cache.call dt) (.turboQuant (.init quantizers cfg L maxSeqLen)) calls).1 =
        .turboQuant c ∧
      ∀ l s, c.stores[l]? = some s →
        let held := ((ledger calls).tokens l).length
        LayerKVStore.tokenCount s.dec + LayerKVStore.tokenCount s.win = held ∧
        ∀ comp, s.comp = some comp →
          s.nbytes headDim = 4 * (B * H) *
            ((headDim + 1) * comp.rows.length + headDim * min held cfg.residualWindow) ∧
          held - cfg.residualWindow ≤ comp.rows.length ∧
          ∃ before, before <+: calls ∧ comp.rows.length ≤
            max maxSeqLen (grown (((ledger before).tokens l).length - cfg.residualWindow)) := by
  intro ledger
  obtain ⟨c, hrun, hkeeps, hroomy⟩ := layers_roomy dt quantizers cfg L maxSeqLen calls
  refine ⟨c, hrun, ?_⟩
  intro l s hs held
  have hholds := hkeeps.store l s hs
  obtain ⟨before, hbefore, hroom⟩ := hroomy l s hs
  refine ⟨hholds.full_count, ?_⟩
  intro comp hcomp
  obtain ⟨rows, rfl, hrows⟩ := hholds.comp_shape hcomp
  have hwin : held - (held - cfg.residualWindow) = min held cfg.residualWindow := by omega
  refine ⟨?_, hrows, before, hbefore, hroom.rows _ hcomp⟩
  rw [← hwin]
  exact hholds.nbytes_eq headDim hcomp

section Stats
variable {quantizer : ℕ → Quantizer W E} {L window n : ℕ} {t : Ledger B H W}
  {c : TurboQuantKVCache W E}

theorem Keeps.nbytes_le (h : Keeps quantizer L window t c) {l : ℕ} {s : LayerKVStore W E}
    (hs : c.stores[l]? = some s) (headDim : ℕ) {comp : CompStore E} (hcomp : s.comp = some comp) :
    4 * (B * H * (t.tokens l).length * headDim) ≤ s.nbytes headDim := by
  have hholds := h.store l s hs
  obtain ⟨rows, rfl, hrows⟩ := hholds.comp_shape hcomp
  rw [hholds.nbytes_eq headDim hcomp]
  have hcount : (t.tokens l).length ≤ rows.length + min (t.tokens l).length window := by omega
  have hwin : (t.tokens l).length - ((t.tokens l).length - window) =
      min (t.tokens l).length window := by omega
  rw [hwin]
  calc 4 * (B * H * (t.tokens l).length * headDim)
      = 4 * (B * H) * (headDim * (t.tokens l).length) := by ring
    _ ≤ 4 * (B * H) * ((headDim + 1) * rows.length +
          headDim * min (t.tokens l).length window) := by
        apply Nat.mul_le_mul_left
        calc headDim * (t.tokens l).length
            ≤ headDim * (rows.length + min (t.tokens l).length window) :=
              Nat.mul_le_mul_left _ hcount
          _ ≤ (headDim + 1) * rows.length + headDim * min (t.tokens l).length window := by
              rw [Nat.mul_add, Nat.add_mul]
              omega

theorem Keeps.actualSeq (h : Keeps quantizer L window t c) (hL : 0 < L)
    (hheld : (t.tokens 0).length = n) (hcounter : t.seqLen = 0 ∨ t.seqLen = n) :
    c.actualSeq = n := by
  have hseqLen := h.counter
  cases hstores : c.stores with
  | nil =>
    have hlayers := h.layers
    rw [hstores] at hlayers
    exact absurd hlayers (Nat.ne_of_lt hL)
  | cons s rest =>
    have hholds := h.store 0 s (by rw [hstores]; rfl)
    have hfirst : s.compPtr + LayerKVStore.tokenCount s.win = n := by
      rw [hholds.ptr, hholds.win_count, hheld]
      omega
    unfold TurboQuantKVCache.actualSeq
    split
    · next hcons =>
      rw [hstores] at hcons
      rw [(List.cons.inj hcons).1] at hfirst
      exact hfirst
    · next hzero =>
      cases hcounter with
      | inl h0 => exact absurd hstores (hzero s rest (hseqLen.trans h0))
      | inr hn => exact hseqLen.trans hn

theorem Keeps.win_isSome (h : Keeps quantizer L window t c) {l : ℕ} {s : LayerKVStore W E}
    (hs : c.stores[l]? = some s) (hheld : 0 < (t.tokens l).length) : s.win.isSome := by
  cases (h.store l s hs).win with
  | inl h =>
    rw [h]
    rfl
  | inr h =>
    rw [h.2] at hheld
    exact absurd hheld (Nat.lt_irrefl 0)

section Total
variable (h : Keeps quantizer L window t c) (headDim : ℕ)
  (hcomp : ∀ (l : ℕ) (s : LayerKVStore W E), c.stores[l]? = some s → ∃ comp, s.comp = some comp)
include h hcomp

theorem Keeps.le_memoryBytes (hheld : ∀ l < L, (t.tokens l).length = n) :
    4 * c.stores.length * (B * H * n * headDim) ≤ c.memoryBytes headDim := by
  have hlayer : ∀ b ∈ c.stores.map (LayerKVStore.nbytes headDim), 4 * (B * H * n * headDim) ≤ b := by
    intro b hb
    obtain ⟨s, hs, rfl⟩ := List.mem_map.1 hb
    obtain ⟨l, hget⟩ := List.mem_iff_getElem?.1 hs
    obtain ⟨comp, hsome⟩ := hcomp l s hget
    rw [← hheld l (h.layers ▸ (List.getElem?_eq_some_iff.1 hget).1)]
    exact h.nbytes_le hget headDim hsome
  have hsum := List.card_nsmul_le_sum _ _ hlayer
  rw [List.length_map, smul_eq_mul] at hsum
  calc 4 * c.stores.length * (B * H * n * headDim)
      = c.stores.length * (4 * (B * H * n * headDim)) := by ring
    _ ≤ c.memoryBytes headDim := hsum

theorem Keeps.memoryBytes_eq_zero (hempty : B * H = 0) : c.memoryBytes headDim = 0 := by
  apply List.sum_eq_zero
  intro b hb
  obtain ⟨s, hs, rfl⟩ := List.mem_map.1 hb
  obtain ⟨l, hget⟩ := List.mem_iff_getElem?.1 hs
  obtain ⟨comp, hsome⟩ := hcomp l s hget
  rw [(h.store l s hget).nbytes_eq headDim hsome, hempty, Nat.mul_zero, Nat.zero_mul]

end Total

end Stats

theorem ratio_mul_le {c : TurboQuantKVCache W E} {headDim size : ℕ}
    (htotal : 4 * c.stores.length * size ≤ c.memoryBytes headDim) (batchSize numHeads : ℕ) :
    (c.compressionStats batchSize numHeads headDim).ratio * size ≤
      (max (batchSize * numHeads * c.actualSeq * headDim) 1 : ℕ) := by
  let elem := max (batchSize * numHeads * c.actualSeq * headDim) 1
  change (if c.memoryBytes headDim > 0 then
    ((2 * 2 * c.stores.length * elem : ℕ) : ℚ) / (c.memoryBytes headDim : ℕ) else 0) * size ≤
      (elem : ℕ)
  split
  · next hpos =>
    have hbytes : (0 : ℚ) < (c.memoryBytes headDim : ℕ) := Nat.cast_pos.2 hpos
    rw [div_mul_eq_mul_div, div_le_iff₀ hbytes]
    have hscaled : 2 * 2 * c.stores.length * elem * size ≤ elem * c.memoryBytes headDim := by
      calc 2 * 2 * c.stores.length * elem * size = elem * (4 * c.stores.length * size) := by ring
        _ ≤ elem * c.memoryBytes headDim := Nat.mul_le_mul_left _ htotal
    exact_mod_cast hscaled
  · rw [zero_mul]
    exact Nat.cast_nonneg _

/-- Where all layers hold the same tokens, the statistics give their number. The ratio is at most one
for every head of the configuration against every head that was stored: the indices take what the
tokens would take in bf16, whatever the bits. -/
theorem turboQuant_ratio_le (dt : Dtype V W) (quantizers : Quantizers W E)
    (cfg : TurboQuantConfig) (L maxSeqLen batchSize numHeads headDim n : ℕ)
    (calls : List (KVCall B H V)) (hL : 0 < L) (hdim : 0 < headDim) (hn : 0 < n) :
    let ledger := ledgerAfter dt (TurboQuantKVCache.layerQuantizer quantizers cfg L) L
      cfg.residualWindow calls
    (∀ l < L, (ledger.tokens l).length = n) → ledger.seqLen = 0 ∨ ledger.seqLen = n →
    ∃ c, (Refine.run (Cache.call dt) (.turboQuant (.init quantizers cfg L maxSeqLen)) calls).1 =
        .turboQuant c ∧
      (c.compressionStats batchSize numHeads headDim).seqLen = n ∧
      (c.compressionStats batchSize numHeads headDim).ratio * (B * H * n * headDim : ℕ) ≤
        (max (batchSize * numHeads * n * headDim) 1 : ℕ) ∧
      (batchSize * numHeads ≤ B * H →
        (c.compressionStats batchSize numHeads headDim).ratio ≤ 1) := by
  intro ledger hheld hcounter
  obtain ⟨c, hrun, hkeeps, hroomy⟩ := layers_roomy dt quantizers cfg L maxSeqLen calls
  have hseq : c.actualSeq = n := hkeeps.actualSeq hL (hheld 0 hL) hcounter
  have hcomp : ∀ (l : ℕ) (s : LayerKVStore W E), c.stores[l]? = some s →
      ∃ comp, s.comp = some comp := by
    intro l s hs
    have hl : l < L := hkeeps.layers ▸ (List.getElem?_eq_some_iff.1 hs).1
    obtain ⟨_, _, hroom⟩ := hroomy l s hs
    have hwin : s.win.isSome := hkeeps.win_isSome hs (by rwa [hheld l hl])
    exact Option.isSome_iff_exists.1 (hroom.allocated hwin)
  have htotal := hkeeps.le_memoryBytes headDim hcomp hheld
  have hratio := ratio_mul_le htotal batchSize numHeads
  rw [hseq] at hratio
  refine ⟨c, hrun, hseq, hratio, ?_⟩
  intro hheads
  by_cases hempty : B * H = 0
  · -- there are no heads, and nothing is taken
    have hnone := hkeeps.memoryBytes_eq_zero headDim hcomp hempty
    simp [TurboQuantKVCache.compressionStats, hnone]
  · have hstored : 1 ≤ B * H * n * headDim :=
      Nat.mul_pos (Nat.mul_pos (Nat.pos_of_ne_zero hempty) hn) hdim
    have hmax : max (batchSize * numHeads * n * headDim) 1 ≤ B * H * n * headDim :=
      max_le (Nat.mul_le_mul_right _ (Nat.mul_le_mul_right _ hheads)) hstored
    have hpos : (0 : ℚ) < (B * H * n * headDim : ℕ) := Nat.cast_pos.2 hstored
    apply le_of_mul_le_mul_right _ hpos
    rw [one_mul]
    exact hratio.trans (Nat.cast_le.2 hmax)

theorem turboQuant_ratio_sample :
    ∃ c, (Refine.run (Cache.call sampleDtype) (.turboQuant (.init sampleQuantizers ⟨4, 2, 1, 0⟩ 1 2))
        [(.update 0 [fun _ _ => (5, 5), fun _ _ => (6, 6), fun _ _ => (7, 7)] : KVCall 1 1 ℕ)]).1 =
        .turboQuant c ∧
      (c.compressionStats 2 1 2).seqLen = 3 ∧
      (c.compressionStats 2 1 2).ratio * (1 * 1 * 3 * 2 : ℕ) ≤ (max (2 * 1 * 3 * 2) 1 : ℕ) ∧
      (2 * 1 ≤ 1 * 1 → (c.compressionStats 2 1 2).ratio ≤ 1) := by
  refine turboQuant_ratio_le sampleDtype sampleQuantizers ⟨4, 2, 1, 0⟩ 1 2 2 1 2 3 _ (by decide)
    (by decide) (by decide) ?_ (.inl rfl)
  intro l hl
  obtain rfl : l = 0 := by omega
  rfl

end Slakshna.KVCache

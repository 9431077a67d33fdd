import Mathlib.Data.List.Perm.Basic
import Mathlib.Data.List.Nodup
import Mathlib.Algebra.BigOperators.Group.List.Basic
import Mathlib.Algebra.Order.BigOperators.Group.List
import Mathlib.Algebra.Order.Ring.Nat
import Slakshna.Inference.KVCache

/-! A generation as the engine drives it: the cache is reset, then every forward pass calls
`update` once for each layer. Nothing in it calls `advance`. -/
namespace Slakshna.KVCache
open Fallible
variable {V W E : Type} {L B H : ℕ}

structure Pass (L B H : ℕ) (V : Type) where
  len : ℕ
  order : List ℕ
  order_perm : order.Perm (List.range L)
  states : ℕ → List (Slab B H (V × V))
  states_length : ∀ l, (states l).length = len

structure PassResult (W : Type) where
  returned : List (ℕ × Chunk (W × W))
  seqLength : ℕ

def updates (dt : Dtype V W) :
    List (ℕ × Chunk (V × V)) → Cache W E → Except KVError (Cache W E × List (ℕ × Chunk (W × W)))
  | [], c => .ok (c, [])
  | (l, states) :: rest, c => do
    let (c', out) ← c.update dt states l
    let (c'', outs) ← updates dt rest c'
    return (c'', (l, out) :: outs)

def forward (dt : Dtype V W) (p : Pass L B H V) (c : Cache W E) :
    Except KVError (Cache W E × PassResult W) := do
  let (c', returned) ← updates dt (p.order.map (fun l => (l, ⟨B, H, p.states l⟩))) c
  return (c', ⟨returned, c'.getSeqLength⟩)

def passes (dt : Dtype V W) :
    List (Pass L B H V) → Cache W E → Except KVError (List (PassResult W))
  | [], _ => .ok []
  | p :: ps, c => do
    let (c', r) ← forward dt p c
    let rs ← passes dt ps c'
    return r :: rs

def generate (dt : Dtype V W) (c : Cache W E) (ps : List (Pass L B H V)) :
    Except KVError (List (PassResult W)) := passes dt ps (c.reset dt)

def Pass.tokens (dt : Dtype V W) (p : Pass L B H V) (l : ℕ) : List (Slab B H (W × W)) :=
  (p.states l).map (Slab.map (castPair dt))

def given (dt : Dtype V W) (ps : List (Pass L B H V)) (l : ℕ) : List (Slab B H (W × W)) :=
  ps.flatMap (fun p => p.tokens dt l)

def tokenCount (ps : List (Pass L B H V)) : ℕ := (ps.map Pass.len).sum

def Correct (dt : Dtype V W) (ps : List (Pass L B H V)) (rs : List (PassResult W)) : Prop :=
  rs.length = ps.length ∧ ∀ i r, rs[i]? = some r →
    (∀ l < L, (l, (⟨B, H, given dt (ps.take (i + 1)) l⟩ : Chunk (W × W))) ∈ r.returned) ∧
    r.seqLength = tokenCount (ps.take (i + 1))

theorem Pass.length_tokens (dt : Dtype V W) (p : Pass L B H V) (l : ℕ) :
    (p.tokens dt l).length = p.len := by
  rw [Pass.tokens, List.length_map, p.states_length]

theorem Pass.mem_order (p : Pass L B H V) (l : ℕ) : l ∈ p.order ↔ l < L := by
  rw [p.order_perm.mem_iff, List.mem_range]

theorem Pass.nodup_order (p : Pass L B H V) : p.order.Nodup :=
  p.order_perm.nodup_iff.2 List.nodup_range

section Rules
variable {dt : Dtype V W} {P : Cache W E → Prop} {Q : Chunk (W × W) → Prop}

theorem updates_rule (hstep : ∀ c states l c' out, P c → c.update dt states l = .ok (c', out) →
      P c' ∧ Q out)
    (calls : List (ℕ × Chunk (V × V))) (c c' : Cache W E) (outs : List (ℕ × Chunk (W × W)))
    (hc : P c) (h : updates dt calls c = .ok (c', outs)) : P c' ∧ ∀ o ∈ outs, Q o.2 := by
  induction calls generalizing c c' outs with
  | nil =>
    obtain ⟨rfl, rfl⟩ := Prod.mk.inj (Except.ok.inj h)
    exact ⟨hc, by simp⟩
  | cons call rest ih =>
    obtain ⟨⟨c₁, out⟩, hupdate, h⟩ := (bind_ok _ _ _).1 h
    obtain ⟨⟨c₂, outs₂⟩, hrest, h⟩ := (bind_ok _ _ _).1 h
    obtain ⟨rfl, rfl⟩ := Prod.mk.inj (Except.ok.inj h)
    obtain ⟨hc₁, hout⟩ := hstep c call.2 call.1 c₁ out hc hupdate
    obtain ⟨hc₂, houts⟩ := ih c₁ c₂ outs₂ hc₁ hrest
    exact ⟨hc₂, List.forall_mem_cons.2 ⟨hout, houts⟩⟩

theorem passes_rule (hstep : ∀ c states l c' out, P c → c.update dt states l = .ok (c', out) →
      P c' ∧ Q out)
    (ps : List (Pass L B H V)) (c : Cache W E) (rs : List (PassResult W)) (hc : P c)
    (h : passes dt ps c = .ok rs) :
    rs.length = ps.length ∧
    ∀ r ∈ rs, (∃ c', P c' ∧ r.seqLength = c'.getSeqLength) ∧ ∀ o ∈ r.returned, Q o.2 := by
  induction ps generalizing c rs with
  | nil =>
    rw [← Except.ok.inj h]
    exact ⟨rfl, by simp⟩
  | cons p ps ih =>
    obtain ⟨⟨c₁, r⟩, hforward, hrun⟩ := (bind_ok _ _ _).1 h
    obtain ⟨rest, hrest, hrs⟩ := (bind_ok (passes dt ps c₁) _ _).1 hrun
    obtain ⟨⟨c₂, outs⟩, hupdates, hr⟩ := (bind_ok _ _ _).1 hforward
    obtain ⟨rfl, rfl⟩ := Prod.mk.inj (Except.ok.inj hr)
    obtain ⟨hc₂, houts⟩ := updates_rule hstep _ c c₂ outs hc hupdates
    obtain ⟨hlen, hall⟩ := ih c₂ rest hc₂ hrest
    rw [← Except.ok.inj hrs]
    exact ⟨by rw [List.length_cons, hlen, List.length_cons],
      List.forall_mem_cons.2 ⟨⟨⟨c₂, hc₂, rfl⟩, houts⟩, hall⟩⟩

variable {ps : List (Pass L B H V)} {rs : List (PassResult W)}

theorem seqLength_stays {c : Cache W E} (h : generate dt c ps = .ok rs) :
    rs.length = ps.length ∧ ∀ r ∈ rs, r.seqLength = 0 := by
  have hreset : (c.reset dt).getSeqLength = 0 := by cases c <;> rfl
  obtain ⟨hlen, hall⟩ := passes_rule (P := fun c : Cache W E => c.getSeqLength = 0)
    (Q := fun _ => True)
    (fun _ _ _ _ _ hc hupdate => ⟨(Cache.update_frame hupdate).2.trans hc, trivial⟩) ps _ rs hreset h
  refine ⟨hlen, ?_⟩
  intro r hr
  obtain ⟨⟨c', hc', hseq⟩, _⟩ := hall r hr
  exact hseq.trans hc'

theorem static_shape {c : StaticKVCache W} (h : generate dt (.static c : Cache W E) ps = .ok rs) :
    ∀ r ∈ rs, ∀ o ∈ r.returned, o.2.batch = c.batchSize ∧ o.2.heads = c.numHeads := by
  have hstep : ∀ (d : Cache W E) states l d' out, Cache.SameBuild (.static c) d →
      d.update dt states l = .ok (d', out) →
      Cache.SameBuild (.static c) d' ∧ (out.batch = c.batchSize ∧ out.heads = c.numHeads) := by
    intro d states l d' out hd hupdate
    refine ⟨hd.trans (Cache.update_frame hupdate).1, ?_⟩
    cases hd with
    | static _ seqLen layers hlen =>
      obtain ⟨r, hr, hout⟩ := (map_ok _ _ _).1 hupdate
      obtain ⟨-, -, -, hshape⟩ := StaticKVCache.update_ok hr
      rw [← (Prod.mk.inj hout).2]
      exact hshape
  intro r hr
  exact ((passes_rule hstep ps _ rs (.static c 0 _ (List.length_map _)) h).2 r hr).2

theorem tokenCount_of_correct {c : Cache W E} (h : generate dt c ps = .ok rs)
    (hcorrect : Correct dt ps rs) : tokenCount ps = 0 := by
  obtain ⟨hlen, hzero⟩ := seqLength_stays h
  cases hn : rs.length with
  | zero => simp [List.length_eq_zero_iff.1 (hlen.symm.trans hn), tokenCount]
  | succ n =>
    have hlast : n < rs.length := by rw [hn]; exact Nat.lt_succ_self n
    have hcount := (hcorrect.2 n _ (List.getElem?_eq_getElem hlast)).2
    rw [List.take_of_length_le (by rw [← hlen, hn]), hzero _ (List.getElem_mem hlast)] at hcount
    exact hcount.symm

end Rules

abbrev Held (B H : ℕ) (W : Type) := ℕ → List (Slab B H (W × W))

/-- An update with room for its tokens returns what the layer held with the tokens behind it, and
leaves `after` of the two. -/
structure Serves (dt : Dtype V W) (L room : ℕ)
    (after : List (Slab B H (W × W)) → List (Slab B H (W × W)) → List (Slab B H (W × W)))
    (Holds : Cache W E → Held B H W → Prop) : Prop where
  seqLength : ∀ c f, Holds c f → c.getSeqLength = 0
  congr : ∀ c f g, (∀ l < L, f l = g l) → Holds c f → Holds c g
  update : ∀ c f l (xs : List (Slab B H (V × V))), Holds c f → l < L →
    (f l).length + xs.length ≤ room →
    ∃ c', c.update dt ⟨B, H, xs⟩ l = .ok (c', ⟨B, H, f l ++ xs.map (Slab.map (castPair dt))⟩) ∧
      Holds c' (Function.update f l (after (f l) (xs.map (Slab.map (castPair dt)))))

section Run
variable {dt : Dtype V W} {room : ℕ}
  {after : List (Slab B H (W × W)) → List (Slab B H (W × W)) → List (Slab B H (W × W))}
  {Holds : Cache W E → Held B H W → Prop}

theorem updates_ok (hs : Serves dt L room after Holds) (p : Pass L B H V) (order : List ℕ)
    (c : Cache W E) (f : Held B H W) (hn : order.Nodup) (hL : ∀ l ∈ order, l < L)
    (hc : Holds c f) (hroom : ∀ l ∈ order, (f l).length + p.len ≤ room) :
    ∃ c', updates dt (order.map (fun l => (l, ⟨B, H, p.states l⟩))) c =
        .ok (c', order.map (fun l => (l, ⟨B, H, f l ++ p.tokens dt l⟩))) ∧
      Holds c' (fun l => if l ∈ order then after (f l) (p.tokens dt l) else f l) := by
  induction order generalizing c f with
  | nil => exact ⟨c, rfl, by simpa using hc⟩
  | cons l rest ih =>
    obtain ⟨hl, hrest⟩ := List.nodup_cons.1 hn
    obtain ⟨c₁, hupdate, hc₁⟩ := hs.update c f l (p.states l) hc (hL l (by simp))
      (by rw [p.states_length]; exact hroom l (by simp))
    have hother : ∀ k ∈ rest, Function.update f l (after (f l) (p.tokens dt l)) k = f k := by
      intro k hk
      exact Function.update_of_ne (fun h : k = l => hl (h ▸ hk)) _ _
    obtain ⟨c₂, hupdates, hc₂⟩ := ih c₁ (Function.update f l (after (f l) (p.tokens dt l))) hrest
      (fun k hk => hL k (List.mem_cons_of_mem l hk)) hc₁
      (fun k hk => by rw [hother k hk]; exact hroom k (List.mem_cons_of_mem l hk))
    refine ⟨c₂, ?_, hs.congr c₂ _ _ ?_ hc₂⟩
    · have houts : rest.map (fun k => ((k, ⟨B, H, Function.update f l
          (after (f l) (p.tokens dt l)) k ++ p.tokens dt k⟩) : ℕ × Chunk (W × W))) =
          rest.map (fun k => (k, ⟨B, H, f k ++ p.tokens dt k⟩)) :=
        List.map_congr_left (fun k hk => by rw [hother k hk])
      rw [List.map_cons, updates, hupdate, List.map_cons, ← houts]
      simp only [bind, Except.bind, hupdates]
      rfl
    · intro k _
      by_cases hkl : k = l
      · subst hkl
        simp [hl]
      · by_cases hk : k ∈ rest
        · simp [hk, hkl]
        · simp [hk, hkl]

theorem forward_ok (hs : Serves dt L room after Holds) (p : Pass L B H V) (c : Cache W E)
    (f : Held B H W) (hc : Holds c f) (hroom : ∀ l < L, (f l).length + p.len ≤ room) :
    ∃ c', forward dt p c =
        .ok (c', ⟨p.order.map (fun l => (l, ⟨B, H, f l ++ p.tokens dt l⟩)), 0⟩) ∧
      Holds c' (fun l => after (f l) (p.tokens dt l)) := by
  obtain ⟨c', hupdates, hc'⟩ := updates_ok hs p p.order c f p.nodup_order
    (fun l hl => (p.mem_order l).1 hl) hc (fun l hl => hroom l ((p.mem_order l).1 hl))
  refine ⟨c', ?_, hs.congr c' _ _ ?_ hc'⟩
  · simp only [forward, bind, Except.bind, hupdates, hs.seqLength c' _ hc']
    rfl
  · intro l hl
    rw [if_pos ((p.mem_order l).2 hl)]

def held (dt : Dtype V W)
    (after : List (Slab B H (W × W)) → List (Slab B H (W × W)) → List (Slab B H (W × W)))
    (f : Held B H W) (ps : List (Pass L B H V)) : Held B H W :=
  ps.foldl (fun f p l => after (f l) (p.tokens dt l)) f

def results (dt : Dtype V W)
    (after : List (Slab B H (W × W)) → List (Slab B H (W × W)) → List (Slab B H (W × W))) :
    Held B H W → List (Pass L B H V) → List (PassResult W)
  | _, [] => []
  | f, p :: ps => ⟨p.order.map (fun l => (l, ⟨B, H, f l ++ p.tokens dt l⟩)), 0⟩ ::
      results dt after (fun l => after (f l) (p.tokens dt l)) ps

theorem passes_ok (hs : Serves dt L room after Holds)
    (hgrow : ∀ xs ys, (after xs ys).length ≤ xs.length + ys.length)
    (ps : List (Pass L B H V)) (c : Cache W E) (f : Held B H W) (hc : Holds c f)
    (hroom : ∀ l < L, (f l).length + tokenCount ps ≤ room) :
    passes dt ps c = .ok (results dt after f ps) := by
  induction ps generalizing c f with
  | nil => rfl
  | cons p ps ih =>
    have hcount : tokenCount (p :: ps) = p.len + tokenCount ps := by simp [tokenCount]
    obtain ⟨c', hforward, hc'⟩ := forward_ok hs p c f hc
      (fun l hl => by have := hroom l hl; omega)
    have hrest := ih c' _ hc' (fun l hl => by
      have hlen := hgrow (f l) (p.tokens dt l)
      have htot := hroom l hl
      rw [p.length_tokens] at hlen
      omega)
    simp only [passes, bind, Except.bind, hforward, hrest]
    rfl

theorem length_results (f : Held B H W) (ps : List (Pass L B H V)) :
    (results dt after f ps).length = ps.length := by
  induction ps generalizing f with
  | nil => rfl
  | cons p ps ih => simp [results, ih]

theorem results_get (f : Held B H W) (ps : List (Pass L B H V)) (i : ℕ) (r : PassResult W)
    (h : (results dt after f ps)[i]? = some r) :
    ∃ p, ps[i]? = some p ∧ r = ⟨p.order.map (fun l =>
      (l, ⟨B, H, held dt after f (ps.take i) l ++ p.tokens dt l⟩)), 0⟩ := by
  induction ps generalizing f i with
  | nil => simp [results] at h
  | cons p ps ih =>
    cases i with
    | zero =>
      refine ⟨p, rfl, ?_⟩
      rw [results, List.getElem?_cons_zero] at h
      exact (Option.some.inj h).symm
    | succ i =>
      rw [results, List.getElem?_cons_succ] at h
      exact ih _ i h

end Run
/-! The static cache writes every pass over the one before it: its counter never moves. -/

section Static

def StaticHolds (L maxSeqLen : ℕ) (c : Cache W E) (f : Held B H W) : Prop :=
  (∃ layers, c = .static ⟨B, H, maxSeqLen, 0, layers⟩ ∧ layers.length = L) ∧ ∀ l < L, f l = []

theorem static_update (dt : Dtype V W) {maxSeqLen l : ℕ}
    {layers : List (List (Slab B H (W × W)))} {slots : List (Slab B H (W × W))}
    (hl : layers[l]? = some slots) (xs : List (Slab B H (V × V))) (hroom : xs.length ≤ maxSeqLen) :
    StaticKVCache.update dt ⟨B, H, maxSeqLen, 0, layers⟩ ⟨B, H, xs⟩ l =
      .ok (⟨B, H, maxSeqLen, 0, layers.set l (xs.map (Slab.map (castPair dt)) ++
        slots.drop xs.length)⟩, ⟨B, H, xs.map (Slab.map (castPair dt))⟩) := by
  have hfit : ¬ 0 + xs.length > maxSeqLen := by omega
  simp only [StaticKVCache.update, hfit, if_false, hl, Chunk.toDtype, true_or, and_self, dif_pos,
    Slab.map_broadcast_self]
  simp

theorem static_serves (dt : Dtype V W) (L B H maxSeqLen : ℕ) :
    Serves dt L maxSeqLen (fun _ _ => [])
      (StaticHolds (B := B) (H := H) (W := W) (E := E) L maxSeqLen) where
  seqLength := by
    intro c f h
    obtain ⟨⟨layers, rfl, _⟩, _⟩ := h
    rfl
  congr := by
    intro c f g hfg h
    exact ⟨h.1, fun l hl => (hfg l hl).symm.trans (h.2 l hl)⟩
  update := by
    intro c f l xs h hl hroom
    obtain ⟨⟨layers, rfl, hlen⟩, hf⟩ := h
    have hslots : layers[l]? = some layers[l] := List.getElem?_eq_getElem (hlen ▸ hl)
    have hupdate := static_update dt hslots xs (Nat.le_of_add_left_le hroom)
    refine ⟨.static ⟨B, H, maxSeqLen, 0, layers.set l (xs.map (Slab.map (castPair dt)) ++
      layers[l].drop xs.length)⟩, ?_, ⟨_, rfl, ?_⟩, ?_⟩
    · rw [hf l hl, List.nil_append, Cache.update, hupdate]
      rfl
    · rw [List.length_set, hlen]
    · intro k hk
      by_cases hkl : k = l
      · rw [hkl, Function.update_self]
      · rw [Function.update_of_ne hkl, hf k hk]

end Static

/-! The compressing cache keeps all tokens in its window, but its counter does not move either. -/

section TurboQuant

def WindowIs (s : LayerKVStore W E) (xs : List (Slab B H (W × W))) : Prop :=
  s.dec = none ∧ (s.win = some ⟨B, H, xs⟩ ∨ s.win = none ∧ xs = [])

def TurboHolds (L room : ℕ) (c : Cache W E) (f : Held B H W) : Prop :=
  ∃ t : TurboQuantKVCache W E, c = .turboQuant t ∧ t.residualWindow = room ∧ t.seqLen = 0 ∧
    t.stores.length = L ∧ ∀ l < L, ∀ s, t.stores[l]? = some s → WindowIs s (f l)

theorem storeAndGet_window (dt : Dtype V W) {s : LayerKVStore W E} {xs : List (Slab B H (W × W))}
    (h : WindowIs s xs) {ys : List (Slab B H (V × V))} {room : ℕ}
    (hroom : xs.length + ys.length ≤ room) :
    ∃ s', s.storeAndGet dt ⟨B, H, ys⟩ room =
        .ok (s', ⟨B, H, xs ++ ys.map (Slab.map (castPair dt))⟩) ∧
      WindowIs s' (xs ++ ys.map (Slab.map (castPair dt))) := by
  obtain ⟨hdec, hwin⟩ := h
  have hcat : LayerKVStore.catOpt s.win (Chunk.toDtype dt ⟨B, H, ys⟩) =
      .ok ⟨B, H, xs ++ ys.map (Slab.map (castPair dt))⟩ := LayerKVStore.catOpt_held hwin _
  have hfits : (xs ++ ys.map (Slab.map (castPair dt))).length ≤ room := by
    rw [List.length_append, List.length_map]
    exact hroom
  rw [LayerKVStore.storeAndGet_keep hcat hfits, hdec]
  exact ⟨_, rfl, rfl, Or.inl rfl⟩

theorem turbo_serves (dt : Dtype V W) (L B H room : ℕ) :
    Serves dt L room (fun xs ys => xs ++ ys)
      (TurboHolds (B := B) (H := H) (W := W) (E := E) L room) where
  seqLength := by
    intro c f h
    obtain ⟨t, rfl, _, hseq, _⟩ := h
    exact hseq
  congr := by
    intro c f g hfg h
    obtain ⟨t, hc, hwindow, hseq, hlen, hstores⟩ := h
    exact ⟨t, hc, hwindow, hseq, hlen, fun l hl s hs => hfg l hl ▸ hstores l hl s hs⟩
  update := by
    intro c f l xs h hl hroom
    obtain ⟨t, rfl, hwindow, hseq, hlen, hstores⟩ := h
    have hstore : t.stores[l]? = some t.stores[l] := List.getElem?_eq_getElem (hlen ▸ hl)
    obtain ⟨s', hget, hs'⟩ := storeAndGet_window dt (hstores l hl _ hstore) hroom
    refine ⟨.turboQuant { t with stores := t.stores.set l s' }, ?_, _, rfl, hwindow, hseq, ?_, ?_⟩
    · simp only [Cache.update, TurboQuantKVCache.update, hstore, hwindow, hget]
      rfl
    · rw [List.length_set, hlen]
    · intro k hk s hs
      by_cases hkl : k = l
      · subst hkl
        rw [List.getElem?_set_self (hlen ▸ hk)] at hs
        rw [Function.update_self, ← Option.some.inj hs]
        exact hs'
      · rw [List.getElem?_set_ne (Ne.symm hkl)] at hs
        rw [Function.update_of_ne hkl]
        exact hstores k hk s hs

end TurboQuant

section Generations
variable (dt : Dtype V W) (quantizers : Quantizers W E)

theorem static_results {maxSeqLen : ℕ} (seqLen : ℕ) {layers : List (List (Slab B H (W × W)))}
    (hlen : layers.length = L) (ps : List (Pass L B H V)) (hmax : tokenCount ps ≤ maxSeqLen) :
    generate dt (.static ⟨B, H, maxSeqLen, seqLen, layers⟩ : Cache W E) ps =
      .ok (results dt (fun _ _ => []) (fun _ => []) ps) := by
  apply passes_ok (static_serves (E := E) dt L B H maxSeqLen) (by simp)
  · exact ⟨⟨_, rfl, (List.length_map _).trans hlen⟩, fun _ _ => rfl⟩
  · simpa using fun _ _ => hmax

theorem turbo_results {c : TurboQuantKVCache W E} (hlen : c.stores.length = L)
    (ps : List (Pass L B H V)) (hwindow : tokenCount ps ≤ c.residualWindow) :
    generate dt (.turboQuant c) ps =
      .ok (results dt (fun xs ys => xs ++ ys) (fun _ => []) ps) := by
  apply passes_ok (turbo_serves (E := E) dt L B H c.residualWindow) (by simp)
  · refine ⟨c.reset, rfl, rfl, rfl, (List.length_map _).trans hlen, ?_⟩
    intro l _ s hs
    obtain ⟨s₀, _, rfl⟩ := List.mem_map.1 (List.mem_of_getElem? hs)
    exact ⟨rfl, Or.inr ⟨rfl, rfl⟩⟩
  · simpa using fun _ _ => hwindow

theorem no_layers_serves (room : ℕ) : Serves (B := B) (H := H) dt 0 room (fun _ _ => [])
    (fun (c : Cache W E) _ => c.getSeqLength = 0) where
  seqLength _ _ h := h
  congr _ _ _ _ h := h
  update _ _ _ _ _ hl := absurd hl (Nat.not_lt_zero _)

variable {after : List (Slab B H (W × W)) → List (Slab B H (W × W)) → List (Slab B H (W × W))}

theorem given_empty {ps : List (Pass L B H V)} (h : ∀ p ∈ ps, p.len = 0) (l : ℕ) :
    given dt ps l = [] := by
  rw [given, List.flatMap_eq_nil_iff]
  intro p hp
  exact List.length_eq_zero_iff.1 ((p.length_tokens dt l).trans (h p hp))

theorem held_empty (hempty : after [] [] = []) {ps : List (Pass L B H V)}
    (h : ∀ p ∈ ps, p.len = 0) : held dt after (fun _ => []) ps = fun _ => [] := by
  induction ps with
  | nil => rfl
  | cons p ps ih =>
    have hp : (fun l => after [] (p.tokens dt l)) = fun _ => [] := by
      funext l
      have hnone : given dt [p] l = [] := given_empty dt (fun q hq => h q (by simp_all)) l
      rw [given, List.flatMap_singleton] at hnone
      rw [hnone, hempty]
    rw [held, List.foldl_cons, hp]
    exact ih (fun q hq => h q (List.mem_cons_of_mem p hq))

theorem results_correct (hempty : after [] [] = []) {ps : List (Pass L B H V)}
    (h : tokenCount ps = 0) : Correct dt ps (results dt after (fun _ => []) ps) := by
  refine ⟨length_results _ ps, ?_⟩
  intro i r hr
  have hzero : ∀ p ∈ ps, p.len = 0 := by
    intro p hp
    have hle := List.single_le_sum (fun n _ => Nat.zero_le n) p.len (List.mem_map_of_mem hp)
    exact Nat.le_zero.1 (h ▸ hle)
  have hzero' : ∀ n, ∀ p ∈ ps.take n, p.len = 0 := fun n p hp => hzero p (List.mem_of_mem_take hp)
  obtain ⟨p, hp, rfl⟩ := results_get _ ps i r hr
  have hmem : p ∈ ps := List.mem_of_getElem? hp
  constructor
  · intro l hl
    have htokens : p.tokens dt l = [] :=
      List.length_eq_zero_iff.1 ((p.length_tokens dt l).trans (hzero p hmem))
    refine List.mem_map.2 ⟨l, (p.mem_order l).2 hl, ?_⟩
    rw [held_empty dt hempty (hzero' i), htokens, given_empty dt (hzero' (i + 1))]
    rfl
  · symm
    apply List.sum_eq_zero
    intro n hn
    obtain ⟨q, hq, rfl⟩ := List.mem_map.1 hn
    exact hzero' (i + 1) q hq

theorem held_append (f : Held B H W) (ps : List (Pass L B H V)) (l : ℕ) :
    held dt (fun xs ys => xs ++ ys) f ps l = f l ++ given dt ps l := by
  induction ps generalizing f with
  | nil => simp [held, given]
  | cons p ps ih =>
    rw [held, List.foldl_cons]
    refine (ih _).trans ?_
    rw [given, given, List.flatMap_cons, List.append_assoc]

theorem turbo_tensors (ps : List (Pass L B H V)) (i : ℕ) (r : PassResult W)
    (h : (results dt (fun xs ys => xs ++ ys) (fun _ => []) ps)[i]? = some r) :
    ∀ l < L, (l, (⟨B, H, given dt (ps.take (i + 1)) l⟩ : Chunk (W × W))) ∈ r.returned := by
  intro l hl
  obtain ⟨p, hp, rfl⟩ := results_get _ ps i r h
  refine List.mem_map.2 ⟨l, (p.mem_order l).2 hl, ?_⟩
  have htake : ps.take (i + 1) = ps.take i ++ [p] := by rw [List.take_add_one, hp]; rfl
  rw [held_append, List.nil_append, htake, given, given, List.flatMap_append, List.flatMap_singleton]

theorem static_tensors (ps : List (Pass L B H V)) (i : ℕ) (r : PassResult W)
    (h : (results dt (fun _ _ => []) (fun _ => []) ps)[i]? = some r) :
    ∃ p, ps[i]? = some p ∧
      ∀ l < L, (l, (⟨B, H, p.tokens dt l⟩ : Chunk (W × W))) ∈ r.returned := by
  obtain ⟨p, hp, rfl⟩ := results_get _ ps i r h
  have hheld : held dt (fun _ _ => []) (fun _ => []) (ps.take i) = fun _ => [] := by
    induction ps.take i with
    | nil => rfl
    | cons q qs ih => exact ih
  refine ⟨p, hp, ?_⟩
  intro l hl
  refine List.mem_map.2 ⟨l, (p.mem_order l).2 hl, ?_⟩
  rw [hheld]
  rfl

variable {dt quantizers}

theorem static_correct_iff {c : StaticKVCache W} (hlen : c.layers.length = L)
    (ps : List (Pass L B H V)) :
    (∃ rs, generate dt (.static c : Cache W E) ps = .ok rs ∧ Correct dt ps rs) ↔
      tokenCount ps = 0 ∧ (ps = [] ∨ L = 0 ∨ (B = c.batchSize ∧ H = c.numHeads)) := by
  constructor
  · intro h
    obtain ⟨rs, hrs, hcorrect⟩ := h
    refine ⟨tokenCount_of_correct hrs hcorrect, ?_⟩
    by_cases hps : ps = []
    · exact Or.inl hps
    by_cases hL : L = 0
    · exact Or.inr (Or.inl hL)
    have hpos : 0 < rs.length := by
      rw [(seqLength_stays hrs).1]
      exact List.length_pos_iff.2 hps
    have hfirst := (hcorrect.2 0 _ (List.getElem?_eq_getElem hpos)).1 0 (Nat.pos_of_ne_zero hL)
    exact Or.inr (Or.inr (static_shape hrs _ (List.getElem_mem hpos) _ hfirst))
  · intro h
    obtain ⟨hzero, hshape⟩ := h
    rcases hshape with rfl | rfl | ⟨hB, hH⟩
    · exact ⟨[], rfl, by simp [Correct]⟩
    · refine ⟨_, passes_ok (no_layers_serves (E := E) dt 0) (by simp) ps _ (fun _ => []) rfl ?_,
        results_correct dt rfl hzero⟩
      exact fun l hl => absurd hl (Nat.not_lt_zero l)
    · obtain ⟨batchSize, numHeads, maxSeqLen, seqLen, layers⟩ := c
      subst hB hH
      exact ⟨_, static_results dt seqLen hlen ps (hzero ▸ Nat.zero_le _),
        results_correct dt rfl hzero⟩

theorem turbo_correct_iff {c : TurboQuantKVCache W E} (hlen : c.stores.length = L)
    (ps : List (Pass L B H V)) :
    (∃ rs, generate dt (.turboQuant c) ps = .ok rs ∧ Correct dt ps rs) ↔ tokenCount ps = 0 := by
  constructor
  · intro h
    obtain ⟨rs, hrs, hcorrect⟩ := h
    exact tokenCount_of_correct hrs hcorrect
  · intro h
    exact ⟨_, turbo_results dt hlen ps (h ▸ Nat.zero_le _), results_correct dt rfl h⟩

theorem build_cases {strategy : String} {shape : CacheShape} {tqCfg : Option TurboQuantConfig}
    {cache : Cache W E}
    (h : buildKVCache dt quantizers strategy shape tqCfg = .ok (some cache)) :
    (lower strategy = "static" ∧
      cache = .static (.init dt shape.numLayers shape.batchSize shape.numHeads shape.maxSeqLen)) ∨
    (lower strategy ≠ "static" ∧ ∃ cfg, tqCfg = some cfg ∧
      cache = .turboQuant (.init quantizers cfg shape.numLayers shape.maxSeqLen)) := by
  simp only [buildKVCache] at h
  split_ifs at h with hnone hstatic hturbo
  · simp at h
  · exact Or.inl ⟨hstatic, by simpa [eq_comm] using h⟩
  · right
    refine ⟨hstatic, ?_⟩
    cases tqCfg with
    | none => simp at h
    | some cfg => exact ⟨cfg, rfl, by simpa [eq_comm] using h⟩

/-- With either cache, and whatever it was used for before, a generation is what it should be
exactly when no pass brings a token (and the static cache gets the shape it was built for):
`get_seq_length` answers 0 after every pass. -/
theorem generate_correct_iff {strategy : String} {shape : CacheShape}
    {tqCfg : Option TurboQuantConfig} {built cache : Cache W E}
    (hbuild : buildKVCache dt quantizers strategy shape tqCfg = .ok (some built))
    (hused : Cache.Used dt built cache) (ps : List (Pass shape.numLayers B H V)) :
    (∃ rs, generate dt cache ps = .ok rs ∧ Correct dt ps rs) ↔
      tokenCount ps = 0 ∧ (ps = [] ∨ shape.numLayers = 0 ∨
        (lower strategy = "static" → B = shape.batchSize ∧ H = shape.numHeads)) := by
  have hsame := hused.sameBuild
  rcases build_cases hbuild with ⟨hstatic, rfl⟩ | ⟨hother, cfg, -, rfl⟩
  · cases hsame with
    | static _ seqLen layers hlen =>
      have hlayers : layers.length = shape.numLayers := hlen.trans (List.length_replicate)
      simp only [hstatic, forall_const]
      exact static_correct_iff hlayers ps
  · cases hsame with
    | turboQuant _ seqLen stores hlen =>
      have hstores : stores.length = shape.numLayers :=
        hlen.trans ((List.length_map _).trans List.length_range)
      simp only [hother, false_implies, or_true, and_true]
      exact turbo_correct_iff hstores ps

end Generations

def sampleDtype : Dtype ℕ ℕ := ⟨id, 0⟩

def sampleQuantizers : Quantizers ℕ ℕ := fun _ _ _ => ⟨id, id, id, id, 0⟩

def sampleShape : CacheShape := ⟨1, 1, 1, 4⟩

def samplePass (xs : List ℕ) : Pass 1 1 1 ℕ where
  len := xs.length
  order := [0]
  order_perm := List.Perm.refl _
  states _ := xs.map (fun x _ _ => (x, x))
  states_length _ := List.length_map _

def sampleStatic : Cache ℕ ℕ := .static (.init sampleDtype 1 1 1 4)

theorem generate_correct_sample :
    (∃ rs, generate sampleDtype (sampleStatic.reset sampleDtype)
        [samplePass [5, 6], samplePass [7]] = .ok rs ∧
      Correct sampleDtype [samplePass [5, 6], samplePass [7]] rs) ↔
    tokenCount [samplePass [5, 6], samplePass [7]] = 0 ∧
      ([samplePass [5, 6], samplePass [7]] = [] ∨ sampleShape.numLayers = 0 ∨
        (lower "static" = "static" → 1 = sampleShape.batchSize ∧ 1 = sampleShape.numHeads)) := by
  have hbuild : buildKVCache sampleDtype sampleQuantizers "static" sampleShape none =
      .ok (some sampleStatic) := rfl
  exact generate_correct_iff hbuild (.reset _ .built) [samplePass [5, 6], samplePass [7]]

/-- The cache has not moved after three tokens. -/
theorem generate_stuck : ¬ ∀ (strategy : String) (shape : CacheShape)
    (tqCfg : Option TurboQuantConfig) (cache : Cache ℕ ℕ),
    buildKVCache sampleDtype sampleQuantizers strategy shape tqCfg = .ok (some cache) →
    ∀ ps : List (Pass shape.numLayers shape.batchSize shape.numHeads ℕ),
      tokenCount ps ≤ shape.maxSeqLen →
      (∀ cfg, tqCfg = some cfg → tokenCount ps ≤ cfg.residualWindow) →
      ∃ rs, generate sampleDtype cache ps = .ok rs ∧ Correct sampleDtype ps rs := by
  intro h
  obtain ⟨rs, hrs, hcorrect⟩ := h "static" sampleShape none sampleStatic rfl
    [samplePass [5, 6], samplePass [7]] (by decide) (by simp)
  exact absurd (tokenCount_of_correct hrs hcorrect) (by decide)

end Slakshna.KVCache

import Slakshna.Inference.Generate

/-! The static cache as its counter wants it: every pass updates each layer once and then advances the
counter. Driven like that it is a list for each layer that only grows until it is reset. -/
namespace Slakshna.KVCache
variable {V W : Type} {L B H : ℕ}

structure Driven (σ : Type) (B H : ℕ) (V W : Type) where
  update : σ → ℕ → List (Slab B H (V × V)) → Except KVError (σ × Chunk (W × W))
  advance : σ → ℕ → σ
  reset : σ → σ

inductive Drive (L B H : ℕ) (V : Type) where
  | reset
  | pass (p : Pass L B H V)

abbrev Returns (W : Type) := List (ℕ × Except KVError (Chunk (W × W)))

namespace Driven
variable {σ : Type} (m : Driven σ B H V W)

/-- The updates of some layers and the advance; what an update raises ends the pass. -/
def pass (p : Pass L B H V) : List ℕ → σ → σ × Returns W
  | [], s => (m.advance s p.len, [])
  | l :: rest, s =>
    match m.update s l (p.states l) with
    | .error e => (s, [(l, .error e)])
    | .ok (s', out) => ((pass p rest s').1, (l, .ok out) :: (pass p rest s').2)

def step (s : σ) : Drive L B H V → σ × Returns W
  | .reset => (m.reset s, [])
  | .pass p => m.pass p p.order s

def run : σ → List (Drive L B H V) → σ × List (Returns W)
  | s, [] => (s, [])
  | s, d :: ds => ((run (m.step s d).1 ds).1, (m.step s d).2 :: (run (m.step s d).1 ds).2)

end Driven

def staticDriven (dt : Dtype V W) : Driven (StaticKVCache W) B H V W where
  update := fun c l ys => c.update dt ⟨B, H, ys⟩ l
  advance := StaticKVCache.advance
  reset := StaticKVCache.reset dt

/-- All tokens given to each layer since the last reset, in the cache dtype; no layer takes more than
`maxSeqLen`. -/
def appendOnly (dt : Dtype V W) (maxSeqLen : ℕ) : Driven (Held B H W) B H V W where
  update := fun f l ys =>
    if (f l).length + ys.length > maxSeqLen
    then .error (.overflow (f l).length ys.length maxSeqLen)
    else .ok (Function.update f l (f l ++ ys.map (Slab.map (castPair dt))),
      ⟨B, H, f l ++ ys.map (Slab.map (castPair dt))⟩)
  advance := fun f _ => f
  reset := fun _ _ => []

def Follows (L maxSeqLen seqLen : ℕ) (c : StaticKVCache W) (f : Held B H W) : Prop :=
  ∃ layers, c = ⟨B, H, maxSeqLen, seqLen, layers⟩ ∧ layers.length = L ∧
    ∀ l slots, layers[l]? = some slots → slots.length = maxSeqLen ∧ f l <+: slots

section Update
variable {dt : Dtype V W} {maxSeqLen seqLen l : ℕ} {c : StaticKVCache W} {f : Held B H W}
  {ys : List (Slab B H (V × V))}

theorem Follows.overflow (h : Follows L maxSeqLen seqLen c f)
    (hfull : seqLen + ys.length > maxSeqLen) : c.update dt ⟨B, H, ys⟩ l =
      .error (.overflow seqLen ys.length maxSeqLen) := by
  obtain ⟨layers, rfl, _⟩ := h
  rw [StaticKVCache.update]
  exact if_pos hfull

theorem Follows.update (h : Follows L maxSeqLen seqLen c f) (hl : l < L)
    (hlen : (f l).length = seqLen) (hfits : seqLen + ys.length ≤ maxSeqLen) :
    ∃ c', c.update dt ⟨B, H, ys⟩ l = .ok (c', ⟨B, H, f l ++ ys.map (Slab.map (castPair dt))⟩) ∧
      Follows L maxSeqLen seqLen c'
        (Function.update f l (f l ++ ys.map (Slab.map (castPair dt)))) := by
  obtain ⟨layers, rfl, hlayers, hslots⟩ := h
  have hget : layers[l]? = some layers[l] := List.getElem?_eq_getElem (hlayers ▸ hl)
  obtain ⟨hmax, hheld⟩ := hslots l _ hget
  have htake : layers[l].take seqLen = f l := by
    rw [← hlen]
    exact (List.prefix_iff_eq_take.1 hheld).symm
  have hnew : (f l ++ ys.map (Slab.map (castPair dt))).length = seqLen + ys.length := by
    rw [List.length_append, hlen, List.length_map]
  have hroom : ¬seqLen + ys.length > maxSeqLen := not_lt.2 hfits
  refine ⟨⟨B, H, maxSeqLen, seqLen, layers.set l (f l ++ ys.map (Slab.map (castPair dt)) ++
    layers[l].drop (seqLen + ys.length))⟩, ?_, _, rfl, ?_, ?_⟩
  · simp only [StaticKVCache.update, hroom, if_false, hget, Chunk.toDtype, true_or, and_self,
      dif_pos, Slab.map_broadcast_self, htake]
    rw [List.take_left' hnew]
  · rw [List.length_set, hlayers]
  · intro k slots hk
    by_cases hkl : k = l
    · subst hkl
      rw [List.getElem?_set_self (hlayers ▸ hl)] at hk
      rw [← Option.some.inj hk, Function.update_self]
      refine ⟨?_, List.prefix_append _ _⟩
      rw [List.length_append, hnew, List.length_drop, hmax]
      omega
    · rw [List.getElem?_set_ne (Ne.symm hkl)] at hk
      rw [Function.update_of_ne hkl]
      exact hslots k slots hk

theorem Follows.advance (h : Follows L maxSeqLen seqLen c f) (n : ℕ) :
    Follows L maxSeqLen (seqLen + n) (c.advance n) f := by
  obtain ⟨layers, rfl, hslots⟩ := h
  exact ⟨layers, rfl, hslots⟩

end Update

section Pass
variable {maxSeqLen seqLen : ℕ} {c : StaticKVCache W} {f : Held B H W}

theorem pass_fits (dt : Dtype V W) (p : Pass L B H V) (order : List ℕ) (hnodup : order.Nodup)
    (hL : ∀ l ∈ order, l < L) (hlen : ∀ l ∈ order, (f l).length = seqLen)
    (hfits : seqLen + p.len ≤ maxSeqLen) (h : Follows L maxSeqLen seqLen c f) :
    ∃ c' g outs, (staticDriven dt).pass p order c = (c'.advance p.len, outs) ∧
      (appendOnly dt maxSeqLen).pass p order f = (g, outs) ∧ Follows L maxSeqLen seqLen c' g ∧
      (∀ e l, (l, .error e) ∉ outs) ∧
      ∀ l, g l = if l ∈ order then f l ++ p.tokens dt l else f l := by
  induction order generalizing c f with
  | nil => exact ⟨c, f, [], rfl, rfl, h, by simp, by simp⟩
  | cons l rest ih =>
    obtain ⟨hl, hrest⟩ := List.nodup_cons.1 hnodup
    obtain ⟨hlL, hrestL⟩ := List.forall_mem_cons.1 hL
    obtain ⟨hllen, hrestlen⟩ := List.forall_mem_cons.1 hlen
    have hroom : seqLen + (p.states l).length ≤ maxSeqLen := by
      rw [p.states_length]
      exact hfits
    obtain ⟨c₁, hupdate, hc₁⟩ : ∃ c₁, (staticDriven dt).update c l (p.states l) =
          .ok (c₁, ⟨B, H, f l ++ p.tokens dt l⟩) ∧
        Follows L maxSeqLen seqLen c₁ (Function.update f l (f l ++ p.tokens dt l)) :=
      h.update hlL hllen hroom
    have hother : ∀ k ∈ rest, Function.update f l (f l ++ p.tokens dt l) k = f k :=
      fun k hk => Function.update_of_ne (fun h : k = l => hl (h ▸ hk)) _ _
    obtain ⟨c₂, g, outs, hstatic, habstract, hfollows, hnone, hg⟩ := ih hrest hrestL
      (fun k hk => by rw [← hrestlen k hk]; exact congrArg List.length (hother k hk)) hc₁
    have happend : (appendOnly dt maxSeqLen).update f l (p.states l) =
        .ok (Function.update f l (f l ++ p.tokens dt l), ⟨B, H, f l ++ p.tokens dt l⟩) :=
      if_neg (by rw [hllen]; exact not_lt.2 hroom)
    refine ⟨c₂, g, (l, .ok ⟨B, H, f l ++ p.tokens dt l⟩) :: outs, ?_, ?_, hfollows, ?_, ?_⟩
    · rw [Driven.pass, hupdate]
      dsimp only
      rw [hstatic]
    · rw [Driven.pass, happend]
      dsimp only
      rw [habstract]
    · intro e k hk
      cases List.mem_cons.1 hk with
      | inl heq => cases heq
      | inr hk => exact hnone e k hk
    · intro k
      rw [hg k]
      by_cases hkl : k = l
      · subst hkl
        simp [hl]
      · simp [hkl]

def Aligned (L maxSeqLen seqLen : ℕ) (c : StaticKVCache W) (f : Held B H W) : Prop :=
  Follows L maxSeqLen seqLen c f ∧ ∀ l < L, (f l).length = seqLen

theorem aligned_init (dt : Dtype V W) (L B H maxSeqLen : ℕ) :
    Aligned L maxSeqLen 0 (StaticKVCache.init dt L B H maxSeqLen) (fun _ => [] : Held B H W) := by
  refine ⟨⟨_, rfl, List.length_replicate, ?_⟩, fun _ _ => rfl⟩
  intro l slots hslots
  rw [List.eq_of_mem_replicate (List.mem_of_getElem? hslots)]
  exact ⟨List.length_replicate, List.nil_prefix⟩

theorem Aligned.reset (h : Aligned L maxSeqLen seqLen c f) (dt : Dtype V W) :
    Aligned L maxSeqLen 0 (c.reset dt) (fun _ => [] : Held B H W) := by
  obtain ⟨⟨layers, rfl, hlayers, hslots⟩, _⟩ := h
  refine ⟨⟨_, rfl, (List.length_map _).trans hlayers, ?_⟩, fun _ _ => rfl⟩
  intro l slots hget
  rw [List.getElem?_map] at hget
  obtain ⟨old, hold, rfl⟩ := Option.map_eq_some_iff.1 hget
  exact ⟨(List.length_map _).trans (hslots l old hold).1, List.nil_prefix⟩

theorem Aligned.pass (h : Aligned L maxSeqLen seqLen c f) (dt : Dtype V W) (p : Pass L B H V) :
    ((staticDriven dt).step c (.pass p)).2 = ((appendOnly dt maxSeqLen).step f (.pass p)).2 ∧
      (∃ seqLen', Aligned L maxSeqLen seqLen' ((staticDriven dt).step c (.pass p)).1
        ((appendOnly dt maxSeqLen).step f (.pass p)).1) ∧
      ((∃ e l, (l, .error e) ∈ ((staticDriven dt).step c (.pass p)).2) →
        ((staticDriven dt).step c (.pass p)).1 = c) := by
  obtain ⟨hfollows, hlen⟩ := h
  by_cases hfits : seqLen + p.len ≤ maxSeqLen
  · obtain ⟨c', g, outs, hstatic, habstract, hfollows', hnone, hg⟩ := pass_fits dt p p.order
      p.nodup_order (fun l hl => (p.mem_order l).1 hl) (fun l hl => hlen l ((p.mem_order l).1 hl))
      hfits hfollows
    simp only [Driven.step, hstatic, habstract]
    refine ⟨trivial, ⟨seqLen + p.len, hfollows'.advance p.len, ?_⟩, ?_⟩
    · intro l hl
      rw [hg l, if_pos ((p.mem_order l).2 hl), List.length_append, hlen l hl, p.length_tokens]
    · intro hraised
      obtain ⟨e, l, hmem⟩ := hraised
      exact absurd hmem (hnone e l)
  · cases horder : p.order with
    | nil =>
      -- there is no layer that could raise
      have hnone : L = 0 := by
        have hcount := p.order_perm.length_eq
        rw [horder, List.length_range] at hcount
        exact hcount.symm
      simp only [Driven.step, horder, Driven.pass]
      refine ⟨trivial, ⟨seqLen + p.len, hfollows.advance p.len, ?_⟩, by simp⟩
      intro l hl
      omega
    | cons l rest =>
      have hl : l < L := (p.mem_order l).1 (by rw [horder]; exact List.mem_cons_self)
      have hfull : seqLen + (p.states l).length > maxSeqLen := by
        rw [p.states_length]
        exact not_le.1 hfits
      have hraise : (staticDriven dt).update c l (p.states l) =
          .error (.overflow seqLen (p.states l).length maxSeqLen) := hfollows.overflow hfull
      have hrefuse : (appendOnly dt maxSeqLen).update f l (p.states l) =
          .error (.overflow seqLen (p.states l).length maxSeqLen) := by
        rw [← hlen l hl] at hfull ⊢
        exact if_pos hfull
      simp only [Driven.step, horder, Driven.pass, hraise, hrefuse]
      exact ⟨trivial, ⟨seqLen, hfollows, hlen⟩, fun _ => trivial⟩

end Pass

section Run
variable {maxSeqLen seqLen : ℕ} {c : StaticKVCache W} {f : Held B H W}

theorem Aligned.step (h : Aligned L maxSeqLen seqLen c f) (dt : Dtype V W) (d : Drive L B H V) :
    ((staticDriven dt).step c d).2 = ((appendOnly dt maxSeqLen).step f d).2 ∧
      ∃ seqLen', Aligned L maxSeqLen seqLen' ((staticDriven dt).step c d).1
        ((appendOnly dt maxSeqLen).step f d).1 := by
  cases d with
  | reset => exact ⟨rfl, 0, h.reset dt⟩
  | pass p => exact ⟨(h.pass dt p).1, (h.pass dt p).2.1⟩

theorem Aligned.run (h : Aligned L maxSeqLen seqLen c f) (dt : Dtype V W)
    (ds : List (Drive L B H V)) :
    ((staticDriven dt).run c ds).2 = ((appendOnly dt maxSeqLen).run f ds).2 ∧
      ∃ seqLen', Aligned L maxSeqLen seqLen' ((staticDriven dt).run c ds).1
        ((appendOnly dt maxSeqLen).run f ds).1 := by
  induction ds generalizing seqLen c f with
  | nil => exact ⟨rfl, seqLen, h⟩
  | cons d ds ih =>
    obtain ⟨hlog, seqLen', h'⟩ := h.step dt d
    obtain ⟨hlogs, hend⟩ := ih h'
    exact ⟨congrArg₂ List.cons hlog hlogs, hend⟩

end Run

/-- Over any passes and resets every update returns all that its layer was given since the last reset,
and raises exactly if that is more than `maxSeqLen` tokens; a pass in which one raises leaves the cache
as it was. -/
theorem static_refines_appendOnly (dt : Dtype V W) (L B H maxSeqLen : ℕ)
    (ds : List (Drive L B H V)) :
    ((staticDriven dt).run (StaticKVCache.init dt L B H maxSeqLen) ds).2 =
        ((appendOnly dt maxSeqLen).run (fun _ => []) ds).2 ∧
      ∀ p : Pass L B H V,
        let c := ((staticDriven dt).run (StaticKVCache.init dt L B H maxSeqLen) ds).1
        (∃ e l, (l, .error e) ∈ ((staticDriven dt).step c (.pass p)).2) →
          ((staticDriven dt).step c (.pass p)).1 = c := by
  obtain ⟨hlogs, _, hend⟩ := (aligned_init dt L B H maxSeqLen).run dt ds
  exact ⟨hlogs, fun p => (hend.pass dt p).2.2⟩

end Slakshna.KVCache

import Slakshna.Inference.KVCache

/-! What a layer of the quantised cache returns over any calls: the tokens that have left the window
read as their codes decode, the others as they are. A reset keeps the shape that was seen first. -/
namespace Slakshna.KVCache
open Fallible
variable {V W E : Type} {B H : ℕ}

def Quantizer.roundTrip (q : Quantizer W E) (p : W × W) : W × W :=
  (q.decodeKey (q.encodeKey p.1), q.decodeValue (q.encodeValue p.2))

def castTokens (dt : Dtype V W) (ys : List (Slab B H (V × V))) : List (Slab B H (W × W)) :=
  ys.map (Slab.map (castPair dt))

def reading (q : Quantizer W E) (n : ℕ) (xs : List (Slab B H (W × W))) : List (Slab B H (W × W)) :=
  (xs.take n).map (Slab.map q.roundTrip) ++ xs.drop n

theorem castTokens_append (dt : Dtype V W) (xs ys : List (Slab B H (V × V))) :
    castTokens dt (xs ++ ys) = castTokens dt xs ++ castTokens dt ys := List.map_append

section Rows
variable {q : Quantizer W E} {rows : List (Fin (B * H) → E × E)} {ptr : ℕ}

theorem storeRow_ok (h : ptr ≤ rows.length) (row : Fin (B * H) → E × E) :
    ∃ rows', CompStore.storeRow q ⟨B, H, rows⟩ ptr row = .ok ⟨B, H, rows'⟩ ∧
      ptr + 1 ≤ rows'.length ∧ rows'.take (ptr + 1) = rows.take ptr ++ [row] := by
  let grown := if ptr ≥ rows.length
    then rows ++ List.replicate (max 128 (rows.length / 2)) (fun _ => (q.zero, q.zero)) else rows
  have hgrown : ptr < grown.length ∧ grown.take ptr = rows.take ptr := by
    by_cases hfull : ptr ≥ rows.length
    · simp only [grown, if_pos hfull, List.length_append, List.length_replicate]
      exact ⟨by omega, List.take_append_of_le_length h⟩
    · simp only [grown, if_neg hfull]
      exact ⟨by omega, trivial⟩
  have hrow : (fun i => row (Slab.source (Or.inl rfl) i)) = row := by
    funext i
    simp [Slab.source]
  refine ⟨grown.set ptr row, ?_, ?_, ?_⟩
  · rw [CompStore.storeRow, dif_pos (Or.inl rfl), hrow]
  · rw [List.length_set]
    exact hgrown.1
  · rw [List.set_eq_take_append_cons_drop, if_pos hgrown.1, hgrown.2, List.take_append]
    have hlen : (rows.take ptr).length = ptr := List.length_take_of_le h
    rw [hlen, List.take_of_length_le (by omega)]
    simp

theorem storeTokens_ok (toks : List (Slab B H (W × W))) (h : ptr ≤ rows.length) :
    ∃ rows', CompStore.storeTokens q ⟨B, H, rows⟩ ptr toks =
        .ok (⟨B, H, rows'⟩, ptr + toks.length) ∧
      rows'.take (ptr + toks.length) = rows.take ptr ++ toks.map (CompStore.encodeRow q) := by
  induction toks generalizing rows ptr with
  | nil => exact ⟨rows, rfl, by simp⟩
  | cons s ss ih =>
    obtain ⟨rows₁, hrow, hle, htake⟩ := storeRow_ok (q := q) h (CompStore.encodeRow q s)
    obtain ⟨rows₂, hrest, htake₂⟩ := ih hle
    refine ⟨rows₂, ?_, ?_⟩
    · rw [CompStore.storeTokens, hrow, ok_bind, hrest, List.length_cons, Nat.add_assoc,
        Nat.add_comm 1]
    · rw [List.length_cons, Nat.add_comm ss.length, ← Nat.add_assoc, htake₂, htake, List.map_cons,
        List.append_assoc]
      rfl

theorem decodeRange_encoded {stop : ℕ} (done : List (Fin (B * H) → E × E))
    {toks : List (Slab B H (W × W))} (hlen : done.length = ptr)
    (h : rows.take stop = done ++ toks.map (CompStore.encodeRow q)) :
    CompStore.decodeRange q ⟨B, H, rows⟩ ptr stop = ⟨B, H, toks.map (Slab.map q.roundTrip)⟩ := by
  have hrow : ∀ s : Slab B H (W × W), (fun b h =>
      let e := CompStore.encodeRow q s (finProdFinEquiv (b, h))
      (q.decodeKey e.1, q.decodeValue e.2)) = s.map q.roundTrip := by
    intro s
    funext b h
    simp [CompStore.encodeRow, Slab.map, Quantizer.roundTrip]
  rw [CompStore.decodeRange, h, List.drop_left' hlen, List.map_map]
  exact congrArg _ (List.map_congr_left (fun s _ => hrow s))

end Rows

namespace LayerKVStore

structure Holds (q : Quantizer W E) (xs : List (Slab B H (W × W))) (n : ℕ)
    (s : LayerKVStore W E) : Prop where
  quantizer : s.quantizer = q
  le : n ≤ xs.length
  ptr : s.compPtr = n
  stored : ∃ rows, s.lazyAlloc B H = ⟨B, H, rows⟩ ∧
    rows.take n = (xs.take n).map (CompStore.encodeRow q)
  win : s.win = some ⟨B, H, xs.drop n⟩ ∨ s.win = none ∧ xs = []
  dec : s.dec = if n = 0 then none else some ⟨B, H, (xs.take n).map (Slab.map q.roundTrip)⟩

section Step
variable {q : Quantizer W E} {xs : List (Slab B H (W × W))} {n : ℕ} {s : LayerKVStore W E}

theorem holds_init (q : Quantizer W E) (maxSeqLen : ℕ) :
    Holds q ([] : List (Slab B H (W × W))) 0 (init q maxSeqLen) where
  quantizer := rfl
  le := le_refl 0
  ptr := rfl
  stored := ⟨_, rfl, rfl⟩
  win := .inr ⟨rfl, rfl⟩
  dec := rfl

theorem Holds.extend (h : Holds q xs n s) (dt : Dtype V W) (ys : List (Slab B H (V × V))) :
    catOpt s.win (Chunk.toDtype dt ⟨B, H, ys⟩) = .ok ⟨B, H, (xs ++ castTokens dt ys).drop n⟩ := by
  rw [List.drop_append_of_le_length h.le]
  refine catOpt_held (h.win.imp_right ?_) _
  rintro ⟨hnone, hxs⟩
  exact ⟨hnone, by rw [hxs, List.drop_nil]⟩

theorem catOpt_ite {X : Type} {xs : List (Slab B H X)} {n : ℕ} (h : n = 0 → xs = [])
    (ys : List (Slab B H X)) :
    catOpt (if n = 0 then none else some ⟨B, H, xs⟩) ⟨B, H, ys⟩ = .ok ⟨B, H, xs ++ ys⟩ := by
  apply catOpt_held
  by_cases hzero : n = 0
  · exact .inr ⟨if_pos hzero, h hzero⟩
  · exact .inl (if_neg hzero)

theorem compressChunk_ok (done toks : List (Slab B H (W × W)))
    {rows : List (Fin (B * H) → E × E)} (hq : s.quantizer = q) (hptr : s.compPtr = done.length)
    (hrows : rows.take done.length = done.map (CompStore.encodeRow q))
    (hdec : s.dec = if done.length = 0 then none
      else some ⟨B, H, done.map (Slab.map q.roundTrip)⟩) (htoks : toks ≠ []) :
    ∃ rows', s.compressChunk ⟨B, H, rows⟩ ⟨B, H, toks⟩ = .ok { s with
        comp := some ⟨B, H, rows'⟩
        compPtr := done.length + toks.length
        dec := some ⟨B, H, (done ++ toks).map (Slab.map q.roundTrip)⟩
        decTokens := s.decTokens + toks.length } ∧
      rows'.take (done.length + toks.length) = (done ++ toks).map (CompStore.encodeRow q) := by
  have hle : done.length ≤ rows.length := by
    have hlen := congrArg List.length hrows
    rw [List.length_take, List.length_map] at hlen
    omega
  obtain ⟨rows', hstore, htake⟩ := storeTokens_ok (q := q) toks hle
  rw [hrows] at htake
  refine ⟨rows', ?_, by rw [htake, List.map_append]⟩
  have hpos : toks.length > 0 := List.length_pos_of_ne_nil htoks
  have hdecode := decodeRange_encoded (q := q) _ (List.length_map (CompStore.encodeRow q)) htake
  have hcat : catOpt s.dec ⟨B, H, toks.map (Slab.map q.roundTrip)⟩ =
      .ok ⟨B, H, (done ++ toks).map (Slab.map q.roundTrip)⟩ := by
    rw [hdec, List.map_append]
    apply catOpt_ite
    intro hzero
    rw [List.length_eq_zero_iff.1 hzero]
    rfl
  rw [compressChunk, hptr, hq, hstore, ok_bind]
  simp only [hpos, if_true, Nat.add_sub_cancel, hdecode, hcat, ok_bind]
  rfl

theorem catOpt_window (zs : List (Slab B H (W × W))) (n : ℕ) :
    catOpt (if n = 0 then none else some ⟨B, H, (zs.take n).map (Slab.map q.roundTrip)⟩)
      ⟨B, H, zs.drop n⟩ = .ok ⟨B, H, reading q n zs⟩ := by
  apply catOpt_ite
  intro hzero
  rw [hzero]
  rfl

theorem storeAndGet_evict {dt : Dtype V W} {ys : List (Slab B H (V × V))} {w : ℕ}
    {win : List (Slab B H (W × W))}
    (hcat : catOpt s.win (Chunk.toDtype dt ⟨B, H, ys⟩) = .ok ⟨B, H, win⟩) (hfull : w < win.length) :
    s.storeAndGet dt ⟨B, H, ys⟩ w =
      (compressChunk { s with win := some ⟨B, H, win.drop (win.length - w)⟩ } (s.lazyAlloc B H)
        ⟨B, H, win.take (win.length - w)⟩ >>= fun s' =>
          (catOpt s'.dec ⟨B, H, win.drop (win.length - w)⟩).map (fun full => (s', full))) := by
  have hpos : win.length - w > 0 := Nat.sub_pos_of_lt hfull
  rw [storeAndGet, hcat, ok_bind]
  simp only [hpos, if_true]
  rfl

theorem Holds.step (h : Holds q xs n s) (dt : Dtype V W) (ys : List (Slab B H (V × V))) (w : ℕ) :
    ∃ s', s.storeAndGet dt ⟨B, H, ys⟩ w = .ok (s', ⟨B, H,
        reading q (max n ((xs ++ castTokens dt ys).length - w)) (xs ++ castTokens dt ys)⟩) ∧
      Holds q (xs ++ castTokens dt ys) (max n ((xs ++ castTokens dt ys).length - w)) s' ∧
      s'.comp.isSome := by
  have hcat := h.extend dt ys
  have htake : (xs ++ castTokens dt ys).take n = xs.take n := List.take_append_of_le_length h.le
  have hle : n ≤ (xs ++ castTokens dt ys).length := by
    rw [List.length_append]
    exact Nat.le_add_right_of_le h.le
  obtain ⟨rows, halloc, hrows⟩ := h.stored
  have hdec := h.dec
  rw [← htake] at hrows hdec
  generalize xs ++ castTokens dt ys = zs at *
  have hwin : (zs.drop n).length = zs.length - n := List.length_drop
  by_cases hroom : (zs.drop n).length ≤ w
  · have hn : max n (zs.length - w) = n := by omega
    rw [storeAndGet_keep hcat hroom, hdec, catOpt_window, halloc, hn]
    exact ⟨_, rfl, ⟨h.quantizer, hle, h.ptr, ⟨rows, rfl, hrows⟩, .inl rfl, rfl⟩, rfl⟩
  · have hevict : 0 < (zs.drop n).length - w := by omega
    have hn : max n (zs.length - w) = n + ((zs.drop n).length - w) := by omega
    have hlen : (zs.take n).length = n := List.length_take_of_le hle
    have hgone : ((zs.drop n).take ((zs.drop n).length - w)).length = (zs.drop n).length - w :=
      List.length_take_of_le (Nat.sub_le _ _)
    rw [storeAndGet_evict hcat (not_le.1 hroom), halloc, hn]
    generalize (zs.drop n).length - w = e at *
    obtain ⟨rows', hcompress, hrows'⟩ := compressChunk_ok (q := q)
      (s := { s with win := some ⟨B, H, (zs.drop n).drop e⟩ }) (zs.take n) ((zs.drop n).take e)
      h.quantizer (h.ptr.trans hlen.symm) (by rw [hlen, hrows]) (by rw [hlen]; exact hdec)
      (List.length_pos_iff.1 (by rw [hgone]; exact hevict))
    have hparts : zs.take n ++ (zs.drop n).take e = zs.take (n + e) := List.take_add.symm
    have hpos : n + e ≠ 0 := by omega
    have hfull := catOpt_window (q := q) zs (n + e)
    rw [hlen, hgone, hparts] at hrows'
    rw [if_neg hpos] at hfull
    rw [hcompress, ok_bind, hlen, hgone, hparts, List.drop_drop, hfull]
    exact ⟨_, rfl, ⟨h.quantizer, by omega, rfl, ⟨rows', rfl, hrows'⟩, .inl rfl,
      (if_neg hpos).symm⟩, rfl⟩

end Step

abbrev Call (B H : ℕ) (V : Type) := ℕ × List (Slab B H (V × V))

def storeCalls (dt : Dtype V W) : LayerKVStore W E → List (Call B H V) →
    Except KVError (LayerKVStore W E × List (Chunk (W × W)))
  | s, [] => .ok (s, [])
  | s, (w, ys) :: rest => do
    let (s', full) ← s.storeAndGet dt ⟨B, H, ys⟩ w
    let (s'', fulls) ← storeCalls dt s' rest
    return (s'', full :: fulls)

def readings (dt : Dtype V W) (q : Quantizer W E) :
    List (Slab B H (W × W)) → ℕ → List (Call B H V) → List (Chunk (W × W))
  | _, _, [] => []
  | xs, n, (w, ys) :: rest =>
    let zs := xs ++ castTokens dt ys
    let n' := max n (zs.length - w)
    ⟨B, H, reading q n' zs⟩ :: readings dt q zs n' rest

section Runs
variable {q : Quantizer W E} {xs : List (Slab B H (W × W))} {n : ℕ} {s : LayerKVStore W E}

theorem storeCalls_cons {dt : Dtype V W} {s' : LayerKVStore W E} {full : Chunk (W × W)} (call : Call B H V)
    (h : s.storeAndGet dt ⟨B, H, call.2⟩ call.1 = .ok (s', full)) (rest : List (Call B H V)) :
    s.storeCalls dt (call :: rest) =
      (s'.storeCalls dt rest).map (fun r => (r.1, full :: r.2)) := by
  rw [storeCalls, h, ok_bind]
  dsimp only
  cases s'.storeCalls dt rest <;> rfl

theorem Holds.calls (h : Holds q xs n s) (dt : Dtype V W) (calls : List (Call B H V)) :
    ∃ s' m, ∃ zs : List (Slab B H (W × W)),
      s.storeCalls dt calls = .ok (s', readings dt q xs n calls) ∧ Holds q zs m s' ∧
      (calls ≠ [] ∨ s.comp.isSome → s'.comp.isSome) := by
  induction calls generalizing xs n s with
  | nil => exact ⟨s, n, xs, rfl, h, fun hsome => hsome.resolve_left (fun hne => hne rfl)⟩
  | cons call rest ih =>
    obtain ⟨s₁, hcall, hs₁, halloc⟩ := h.step dt call.2 call.1
    obtain ⟨s₂, m, zs, hrest, hs₂, hsome⟩ := ih hs₁
    refine ⟨s₂, m, zs, ?_, hs₂, fun _ => hsome (.inr halloc)⟩
    rw [storeCalls_cons call hcall, hrest]
    rfl

theorem Holds.window {w : ℕ} (h : Holds q xs n s) (hn : n = xs.length - w) (dt : Dtype V W)
    (chunks : List (List (Slab B H (V × V)))) :
    ∃ s' outs, s.storeCalls dt (chunks.map (fun c => (w, c))) = .ok (s', outs) ∧
      Holds q (xs ++ castTokens dt chunks.flatten)
        ((xs ++ castTokens dt chunks.flatten).length - w) s' := by
  induction chunks generalizing xs n s with
  | nil => exact ⟨s, [], rfl, by simpa [castTokens, ← hn] using h⟩
  | cons c rest ih =>
    obtain ⟨s₁, hcall, hs₁, _⟩ := h.step dt c w
    have hmax : max n ((xs ++ castTokens dt c).length - w) =
        (xs ++ castTokens dt c).length - w := by
      rw [List.length_append]
      omega
    obtain ⟨s₂, outs, hrest, hs₂⟩ := ih hs₁ hmax
    have hrun := storeCalls_cons (w, c) hcall (rest.map (fun c => (w, c)))
    rw [hrest] at hrun
    refine ⟨s₂, _, hrun, ?_⟩
    rw [List.flatten_cons, castTokens_append, ← List.append_assoc]
    exact hs₂

end Runs

/-- However the tokens are split, the last call returns what one call with all of them returns: those
that do not fit in the window each as its own codes decode, the others as they are. After every call
the pointer is at the first token in the window and the decoded cache is that of the stored rows. -/
theorem storeAndGet_split (dt : Dtype V W) (q : Quantizer W E) (maxSeqLen w : ℕ)
    (chunks : List (List (Slab B H (V × V)))) (last : List (Slab B H (V × V))) :
    let xs := castTokens dt (chunks ++ [last]).flatten
    ∃ s outs s' full,
      (init q maxSeqLen).storeCalls dt (chunks.map (fun c => (w, c))) = .ok (s, outs) ∧
      s.storeAndGet dt ⟨B, H, last⟩ w = .ok (s', full) ∧
      ((init q maxSeqLen).storeAndGet dt ⟨B, H, (chunks ++ [last]).flatten⟩ w).map Prod.snd =
        .ok full ∧
      full = ⟨B, H, reading q (xs.length - w) xs⟩ ∧ s'.compPtr = xs.length - w ∧
      ∃ comp, s'.comp = some comp ∧ s'.dec = if s'.compPtr = 0 then none
        else some (comp.decodeRange s'.quantizer 0 s'.compPtr) := by
  intro xs
  obtain ⟨s, outs, hrun, hs⟩ := (holds_init (B := B) (H := H) q maxSeqLen).window
    (Nat.zero_sub w).symm dt chunks
  obtain ⟨s', hlast, hs', halloc⟩ := hs.step dt last w
  obtain ⟨s₁, hwhole, _⟩ := (holds_init (B := B) (H := H) q maxSeqLen).step dt
    (chunks ++ [last]).flatten w
  have hall : castTokens dt chunks.flatten ++ castTokens dt last = xs := by
    simp [xs, castTokens]
  have hmax : max ((castTokens dt chunks.flatten).length - w) (xs.length - w) = xs.length - w := by
    rw [← hall, List.length_append]
    omega
  simp only [List.nil_append, hall, hmax] at hlast hs'
  refine ⟨s, outs, s', _, hrun, hlast, ?_, rfl, hs'.ptr, ?_⟩
  · rw [hwhole, List.nil_append, Nat.zero_max]
    rfl
  · obtain ⟨comp, hcomp⟩ := Option.isSome_iff_exists.1 halloc
    obtain ⟨rows, hrows, htake⟩ := hs'.stored
    have heq : comp = ⟨B, H, rows⟩ := by
      rw [lazyAlloc, hcomp] at hrows
      exact hrows
    have hdecode := decodeRange_encoded (q := q) [] List.length_nil htake
    refine ⟨comp, hcomp, ?_⟩
    rw [hs'.ptr, hs'.quantizer, heq, hdecode]
    exact hs'.dec

/-! A store that was allocated for another shape. -/

def AlwaysFits : ℕ → List (Call B H V) → Prop
  | _, [] => True
  | n, (w, ys) :: rest => n + ys.length ≤ w ∧ AlwaysFits (n + ys.length) rest

structure Stale (c : CompStore E) (xs : List (Slab B H (W × W))) (s : LayerKVStore W E) : Prop where
  comp : ∃ c', s.comp = some c' ∧ c'.batch = c.batch ∧ c'.heads = c.heads
  other : ¬(B = c.batch ∧ H = c.heads)
  win : s.win = some ⟨B, H, xs⟩ ∨ s.win = none ∧ xs = []
  dec : s.dec = none

section Stale
variable {q : Quantizer W E} {c : CompStore E} {xs : List (Slab B H (W × W))}
  {s : LayerKVStore W E}

theorem Stale.extend (h : Stale c xs s) (dt : Dtype V W) (ys : List (Slab B H (V × V))) :
    catOpt s.win (Chunk.toDtype dt ⟨B, H, ys⟩) = .ok ⟨B, H, xs ++ castTokens dt ys⟩ :=
  catOpt_held h.win _

theorem storeTokens_shape {B' H' ptr : ℕ} {toks : List (Slab B' H' (W × W))}
    {r : CompStore E × ℕ} (h : c.storeTokens q ptr toks = .ok r) :
    r.1.batch = c.batch ∧ r.1.heads = c.heads := by
  induction toks generalizing c ptr with
  | nil =>
    rw [← Except.ok.inj h]
    exact ⟨rfl, rfl⟩
  | cons t ts ih =>
    obtain ⟨c₁, hrow, hrest⟩ := (bind_ok _ _ _).1 h
    rw [CompStore.storeRow] at hrow
    split at hrow
    · rw [← Except.ok.inj hrow] at hrest
      have hshape := ih hrest
      exact hshape
    · cases hrow

theorem Stale.keep (h : Stale c xs s) (dt : Dtype V W) {ys : List (Slab B H (V × V))} {w : ℕ}
    (hfits : xs.length + ys.length ≤ w) : ∃ s', s.storeAndGet dt ⟨B, H, ys⟩ w =
      .ok (s', ⟨B, H, xs ++ castTokens dt ys⟩) ∧ Stale c (xs ++ castTokens dt ys) s' := by
  have hroom : (xs ++ castTokens dt ys).length ≤ w := by
    rw [List.length_append, castTokens, List.length_map]
    exact hfits
  obtain ⟨c', hcomp, hshape⟩ := h.comp
  rw [storeAndGet_keep (h.extend dt ys) hroom, h.dec]
  refine ⟨_, rfl, ⟨⟨c', ?_, hshape⟩, h.other, .inl rfl, rfl⟩⟩
  rw [lazyAlloc, hcomp]
  rfl

theorem Stale.fails (h : Stale c xs s) (dt : Dtype V W) {ys : List (Slab B H (V × V))} {w : ℕ}
    (hfull : ¬xs.length + ys.length ≤ w) (r : LayerKVStore W E × Chunk (W × W)) :
    s.storeAndGet dt ⟨B, H, ys⟩ w ≠ .ok r := by
  have hless : w < (xs ++ castTokens dt ys).length := by
    rw [List.length_append, castTokens, List.length_map]
    exact not_le.1 hfull
  obtain ⟨c', hcomp, hbatch, hheads⟩ := h.comp
  have halloc : s.lazyAlloc B H = c' := by
    rw [lazyAlloc, hcomp]
    rfl
  rw [storeAndGet_evict (h.extend dt ys) hless, halloc]
  generalize hevicted : (xs ++ castTokens dt ys).take _ = evicted
  have hpos : evicted.length > 0 := by
    rw [← hevicted, List.length_take_of_le (Nat.sub_le _ _)]
    exact Nat.sub_pos_of_lt hless
  intro hok
  obtain ⟨s', hcompress, hmap⟩ := (bind_ok _ _ _).1 hok
  obtain ⟨full, hcat, _⟩ := (map_ok _ _ _).1 hmap
  obtain ⟨stored, hstore, hrest⟩ := (bind_ok _ _ _).1 hcompress
  have hshape := storeTokens_shape hstore
  simp only [hpos, if_true, h.dec, catOpt, ok_bind] at hrest
  rw [← Except.ok.inj hrest] at hcat
  simp only [catOpt, Chunk.cat] at hcat
  split at hcat
  · next heq =>
    exact h.other ⟨heq.1.trans (hshape.1.trans hbatch), heq.2.trans (hshape.2.trans hheads)⟩
  · cases hcat

theorem Stale.calls (h : Stale c xs s) (dt : Dtype V W) (q : Quantizer W E)
    (calls : List (Call B H V)) :
    ((∃ r, s.storeCalls dt calls = .ok r) ↔ AlwaysFits xs.length calls) ∧
      (AlwaysFits xs.length calls →
        ∃ s', s.storeCalls dt calls = .ok (s', readings dt q xs 0 calls)) := by
  induction calls generalizing xs s with
  | nil => exact ⟨iff_of_true ⟨_, rfl⟩ trivial, fun _ => ⟨s, rfl⟩⟩
  | cons call rest ih =>
    have hlen : (xs ++ castTokens dt call.2).length = xs.length + call.2.length := by
      rw [List.length_append, castTokens, List.length_map]
    by_cases hfits : xs.length + call.2.length ≤ call.1
    · obtain ⟨s₁, hcall, hs₁⟩ := h.keep dt hfits
      obtain ⟨hiff, hok⟩ := ih hs₁
      rw [hlen] at hiff hok
      have hrun := storeCalls_cons call hcall rest
      constructor
      · rw [hrun, AlwaysFits, ← hiff]
        constructor
        · intro hall
          obtain ⟨r, hr⟩ := hall
          obtain ⟨r', hr', _⟩ := (map_ok _ _ _).1 hr
          exact ⟨hfits, r', hr'⟩
        · intro hall
          obtain ⟨_, r, hr⟩ := hall
          exact ⟨_, (map_ok _ _ _).2 ⟨r, hr, rfl⟩⟩
      · intro hall
        obtain ⟨s₂, hrest⟩ := hok hall.2
        refine ⟨s₂, ?_⟩
        have hzero : max 0 ((xs ++ castTokens dt call.2).length - call.1) = 0 := by omega
        rw [hrun, hrest, readings, hzero, reading, List.take_zero, List.drop_zero]
        rfl
    · constructor
      · refine iff_of_false ?_ (fun hall => hfits hall.1)
        intro hall
        obtain ⟨r, hr⟩ := hall
        obtain ⟨r₁, hcall, _⟩ := (bind_ok _ _ _).1 hr
        exact h.fails dt hfits r₁ hcall
      · exact fun hall => absurd hall.1 hfits

end Stale

section Reset
variable {q : Quantizer W E} {xs : List (Slab B H (W × W))} {n : ℕ} {s : LayerKVStore W E}

theorem Holds.reset_comp (h : Holds q xs n s) :
    s.reset.comp = none ∨ ∃ rows, s.reset.comp = some ⟨B, H, rows⟩ := by
  obtain ⟨rows, halloc, _⟩ := h.stored
  cases hcomp : s.comp with
  | none =>
    rw [reset, hcomp]
    exact .inl rfl
  | some c =>
    rw [lazyAlloc, hcomp] at halloc
    have hc : c = ⟨B, H, rows⟩ := halloc
    rw [reset, hcomp, hc]
    exact .inr ⟨_, rfl⟩

theorem Holds.reset (h : Holds q xs n s) :
    Holds q ([] : List (Slab B H (W × W))) 0 s.reset where
  quantizer := h.quantizer
  le := le_refl 0
  ptr := rfl
  stored := by
    cases h.reset_comp with
    | inl hnone =>
      rw [lazyAlloc, hnone]
      exact ⟨_, rfl, rfl⟩
    | inr hsome =>
      obtain ⟨rows, hrows⟩ := hsome
      rw [lazyAlloc, hrows]
      exact ⟨rows, rfl, rfl⟩
  win := .inr ⟨rfl, rfl⟩
  dec := rfl

theorem Holds.reset_stale {B' H' : ℕ} (h : Holds q xs n s) (halloc : s.comp.isSome)
    (hother : ¬(B' = B ∧ H' = H)) :
    Stale ⟨B, H, []⟩ ([] : List (Slab B' H' (W × W))) s.reset where
  comp := by
    cases h.reset_comp with
    | inl hnone =>
      obtain ⟨c, hc⟩ := Option.isSome_iff_exists.1 halloc
      rw [LayerKVStore.reset, hc] at hnone
      cases hnone
    | inr hsome =>
      obtain ⟨rows, hrows⟩ := hsome
      exact ⟨_, hrows, rfl, rfl⟩
  other := hother
  win := .inr ⟨rfl, rfl⟩
  dec := rfl

end Reset

/-- After a reset the calls return what a new store returns, and none fails, exactly if the store was
not used before, was used for the same shape, or never has to compress a token. -/
theorem reset_as_new_iff {B' H' : ℕ} (dt : Dtype V W) (q : Quantizer W E) (maxSeqLen : ℕ)
    (before : List (Call B H V)) (after : List (Call B' H' V)) :
    ∃ s outs, (init q maxSeqLen).storeCalls dt before = .ok (s, outs) ∧
      ((∃ s₁ s₂ outs', s.reset.storeCalls dt after = .ok (s₁, outs') ∧
          (init q maxSeqLen).storeCalls dt after = .ok (s₂, outs')) ↔
        before = [] ∨ (B' = B ∧ H' = H) ∨ AlwaysFits 0 after) := by
  obtain ⟨s, n, xs, hbefore, hs, halloc⟩ :=
    (holds_init (B := B) (H := H) q maxSeqLen).calls dt before
  obtain ⟨s₂, _, _, hnew, _⟩ := (holds_init (B := B') (H := H') q maxSeqLen).calls dt after
  refine ⟨s, _, hbefore, ?_⟩
  by_cases hempty : before = []
  · refine iff_of_true ?_ (.inl hempty)
    rw [hempty] at hbefore
    have hinit : s.reset = init q maxSeqLen := by
      rw [← (Prod.mk.inj (Except.ok.inj hbefore)).1]
      rfl
    exact ⟨s₂, s₂, _, hinit ▸ hnew, hnew⟩
  · by_cases hshape : B' = B ∧ H' = H
    · refine iff_of_true ?_ (.inr (.inl hshape))
      obtain ⟨rfl, rfl⟩ := hshape
      obtain ⟨s₁, _, _, hrun, _⟩ := hs.reset.calls dt after
      exact ⟨s₁, s₂, _, hrun, hnew⟩
    · have hstale := hs.reset_stale (halloc (.inl hempty)) hshape
      obtain ⟨hiff, hok⟩ := hstale.calls dt q after
      simp only [hempty, hshape, false_or]
      constructor
      · intro h
        obtain ⟨s₁, _, outs', hrun, _⟩ := h
        exact hiff.1 ⟨_, hrun⟩
      · intro h
        obtain ⟨s₁, hrun⟩ := hok h
        exact ⟨s₁, s₂, _, hrun, hnew⟩

def plainQuantizer : Quantizer ℕ ℕ := ⟨id, id, id, id, 0⟩

def plainDtype : Dtype ℕ ℕ := ⟨id, 0⟩

/-- A request with one prompt, then one with two, and no window. -/
theorem reset_keeps_shape : ∃ s outs, (init plainQuantizer 4).storeCalls plainDtype
      ([(0, [fun _ _ => (1, 1)])] : List (Call 1 1 ℕ)) = .ok (s, outs) ∧
    s.reset.storeCalls plainDtype ([(0, [fun _ _ => (1, 1)])] : List (Call 2 1 ℕ)) =
      .error .shape ∧
    ∃ s₂ outs', (init plainQuantizer 4).storeCalls plainDtype
      ([(0, [fun _ _ => (1, 1)])] : List (Call 2 1 ℕ)) = .ok (s₂, outs') :=
  ⟨_, _, rfl, rfl, _, _, rfl⟩

end LayerKVStore

end Slakshna.KVCache

import Mathlib.Data.Char
import Mathlib.Data.List.Lex
import Slakshna.Lib.Lowest
import Slakshna.Engine.Aggregate

/-! The similarity of two deltas, which drives the trust. Their tensors are put one behind the other
in the order of the keys, and compared if both come out equally long. -/
namespace Slakshna.Engine
open Checkpoint Lowest
variable {K : Type} {ι X : Type}

def sortedKeys (d : StateDict (Tensor K)) : List Name := sortBy (fun k => k) d.keys

def segment (f : Tensor K → List X) (d : StateDict (Tensor K)) (k : Name) : List X :=
  (d.lookup k).elim [] f

def flattenTensors (d : StateDict (Tensor K)) : List K :=
  (sortedKeys d).flatMap (segment (fun t => List.ofFn t.entries) d)

def recorded [Field K] (cosine : List K → List K → K) (myId : String) (own : StateDict (Tensor K))
    (j : String) (d : StateDict (Tensor K)) : K :=
  if flattenTensors own ≠ [] then
    if j = myId then 1
    else if (flattenTensors d).length = (flattenTensors own).length then
      cosine (flattenTensors own) (flattenTensors d)
    else 0
  else 0

def peerImprovements [Field K] (cosine : List K → List K → K) (myId : String)
    (own : StateDict (Tensor K)) (available : List (String × StateDict (Tensor K))) :
    List (String × K) :=
  available.map (fun e => (e.1, recorded cosine myId own e.1 e.2))

def indices : List ℕ → List (List ℕ)
  | [] => [[]]
  | n :: shape => (List.range n).flatMap (fun i => (indices shape).map (fun idx => i :: idx))

namespace Tensor

def places (t : Tensor K) : List (List ℕ) := indices t.shape

def offsets (t : Tensor K) : List ℕ := List.range t.numel

end Tensor

def origins (pos : Tensor K → List ι) (d : StateDict (Tensor K)) : List (Name × ι) :=
  (sortedKeys d).flatMap (fun k => (segment pos d k).map (fun i => (k, i)))

def Compared (own d : StateDict (Tensor K)) : Prop :=
  flattenTensors own ≠ [] ∧ (flattenTensors d).length = (flattenTensors own).length

/-- Two deltas that are compared have the same origins, and others have no similarity. -/
structure LikeWithLike [Field K] (pos : Tensor K → List ι) (cosine : List K → List K → K)
    (myId : String) (own : StateDict (Tensor K)) (j : String) (d : StateDict (Tensor K)) :
    Prop where
  aligned : Compared own d → origins pos own = origins pos d
  zero : ¬Compared own d → recorded cosine myId own j d = 0

def sizeAt (d : StateDict (Tensor K)) (k : Name) : ℕ := ((d.lookup k).map Tensor.numel).getD 0

def shapeAt (d : StateDict (Tensor K)) (k : Name) : Option (List ℕ) :=
  (d.lookup k).map Tensor.shape

def SameSizes (own d : StateDict (Tensor K)) : Prop := ∀ k, sizeAt own k = sizeAt d k

def SameShapes (own d : StateDict (Tensor K)) : Prop :=
  ∀ k, sizeAt own k = sizeAt d k ∧ (0 < sizeAt own k → shapeAt own k = shapeAt d k)

variable {own d : StateDict (Tensor K)} {pos : Tensor K → List ι}

theorem sortedKeys_perm (d : StateDict (Tensor K)) : (sortedKeys d).Perm d.keys :=
  sortBy_perm _ _

theorem nodup_sortedKeys (d : StateDict (Tensor K)) : (sortedKeys d).Nodup :=
  (sortedKeys_perm d).nodup_iff.2 d.keys_nodup

theorem segment_of_notMem {f : Tensor K → List X} {k : Name} (hk : k ∉ sortedKeys d) :
    segment f d k = [] := by
  rw [(sortedKeys_perm d).mem_iff, ← AList.mem_keys, ← AList.lookup_eq_none] at hk
  rw [segment, hk, Option.elim_none]

theorem filter_parts {keys : List Name} (hnodup : keys.Nodup) (part : Name → List ι) (k : Name) :
    (keys.flatMap (fun j => (part j).map (fun i => (j, i)))).filter (fun o => o.1 = k) =
      if k ∈ keys then (part k).map (fun i => (k, i)) else [] := by
  induction keys with
  | nil => rfl
  | cons j keys ih =>
    obtain ⟨hj, hkeys⟩ := List.nodup_cons.1 hnodup
    rw [List.flatMap_cons, List.filter_append, ih hkeys]
    by_cases hjk : j = k
    · subst hjk
      simp [hj]
    · simp [hjk, Ne.symm hjk]

theorem filter_origins (pos : Tensor K → List ι) (d : StateDict (Tensor K)) (k : Name) :
    (origins pos d).filter (fun o => o.1 = k) = (segment pos d k).map (fun i => (k, i)) := by
  rw [origins, filter_parts (nodup_sortedKeys d)]
  split
  · rfl
  · next hk => rw [segment_of_notMem hk, List.map_nil]

theorem pairwise_origins (pos : Tensor K → List ι) (d : StateDict (Tensor K)) :
    (origins pos d).Pairwise (fun a b => a.1 ≤ b.1) := by
  rw [origins, List.pairwise_flatMap]
  constructor
  · intro k _
    rw [List.pairwise_map]
    exact List.pairwise_of_forall (fun _ _ => le_rfl)
  · apply (sortBy_pairwise (fun k : Name => k) d.keys).imp
    intro j k hjk a ha b hb
    obtain ⟨_, _, rfl⟩ := List.mem_map.1 ha
    obtain ⟨_, _, rfl⟩ := List.mem_map.1 hb
    exact hjk

theorem origins_eq_iff : origins pos own = origins pos d ↔
    ∀ k, segment pos own k = segment pos d k := by
  constructor
  · intro h k
    have hpart := congrArg (List.filter (fun o : Name × ι => decide (o.1 = k))) h
    rw [filter_origins, filter_origins] at hpart
    exact List.map_injective_iff.2 (fun _ _ heq => (Prod.mk.inj heq).2) hpart
  · intro h
    apply eq_of_filter_key Prod.fst (pairwise_origins pos own) (pairwise_origins pos d)
    intro k
    rw [filter_origins, filter_origins, h k]

theorem flattenTensors_eq [Field K] (d : StateDict (Tensor K)) : flattenTensors d =
    (origins Tensor.offsets d).map (fun o => ((d.lookup o.1).map (fun t => t.entry o.2)).getD 0) := by
  rw [flattenTensors, origins, List.map_flatMap]
  apply congrArg (List.flatMap · (sortedKeys d))
  funext k
  rw [List.map_map, segment, segment]
  cases hk : d.lookup k with
  | none => rfl
  | some t =>
    apply List.ext_getElem
    · simp [Tensor.offsets]
    · intro i hi hi'
      rw [Option.elim_some, List.length_ofFn] at hi
      simp [Tensor.offsets, hk, Tensor.entry, hi]

theorem length_indices (shape : List ℕ) : (indices shape).length = shape.prod := by
  induction shape with
  | nil => rfl
  | cons n shape ih => simp [indices, List.length_flatMap, ih]

theorem mem_indices {idx shape : List ℕ} :
    idx ∈ indices shape ↔ List.Forall₂ (· < ·) idx shape := by
  induction shape generalizing idx with
  | nil => simp [indices]
  | cons n shape ih =>
    simp only [indices, List.mem_flatMap, List.mem_range, List.mem_map]
    constructor
    · rintro ⟨i, hi, rest, hrest, rfl⟩
      exact List.Forall₂.cons hi (ih.1 hrest)
    · intro h
      cases h with
      | cons hi hrest => exact ⟨_, hi, _, ih.2 hrest, rfl⟩

theorem shape_eq_of_indices {s s' idx : List ℕ}
    (h : ∀ idx, List.Forall₂ (· < ·) idx s ↔ List.Forall₂ (· < ·) idx s')
    (hidx : List.Forall₂ (· < ·) idx s) : s = s' := by
  induction hidx generalizing s' with
  | nil =>
    have hnil := (h []).1 List.Forall₂.nil
    cases hnil with
    | nil => rfl
  | @cons i n rest s hi hrest ih =>
    have hcons := (h (i :: rest)).1 (List.Forall₂.cons hi hrest)
    cases hcons with
    | @cons _ m _ s' him hrest' =>
      have hn : n ≤ m := by
        apply le_of_forall_lt
        intro j hj
        exact (List.forall₂_cons.1 ((h (j :: rest)).1 (List.Forall₂.cons hj hrest))).1
      have hm : m ≤ n := by
        apply le_of_forall_lt
        intro j hj
        exact (List.forall₂_cons.1 ((h (j :: rest)).2 (List.Forall₂.cons hj hrest'))).1
      have hs : s = s' := by
        apply ih
        intro idx
        have hfirst := h (i :: idx)
        rw [List.forall₂_cons, List.forall₂_cons] at hfirst
        simpa [hi, him] using hfirst
      rw [le_antisymm hn hm, hs]

theorem indices_eq_iff {s s' : List ℕ} :
    indices s = indices s' ↔ s.prod = s'.prod ∧ (0 < s.prod → s = s') := by
  constructor
  · intro h
    refine ⟨by rw [← length_indices, ← length_indices, h], ?_⟩
    intro hpos
    rw [← length_indices, List.length_pos_iff_exists_mem] at hpos
    obtain ⟨idx, hidx⟩ := hpos
    apply shape_eq_of_indices _ (mem_indices.1 hidx)
    intro idx
    rw [← mem_indices, ← mem_indices, h]
  · rintro ⟨hprod, heq⟩
    rcases Nat.eq_zero_or_pos s.prod with hzero | hpos
    · have hs := List.eq_nil_of_length_eq_zero ((length_indices s).trans hzero)
      have hs' := List.eq_nil_of_length_eq_zero ((length_indices s').trans (hprod.symm.trans hzero))
      rw [hs, hs']
    · rw [heq hpos]

theorem segment_offsets (d : StateDict (Tensor K)) (k : Name) :
    segment Tensor.offsets d k = List.range (sizeAt d k) := by
  rw [segment, sizeAt]
  cases d.lookup k <;> rfl

theorem indices_eq_nil_iff {s : List ℕ} : indices s = [] ↔ s.prod = 0 := by
  rw [← List.length_eq_zero_iff, length_indices]

theorem segment_places_eq_iff {k : Name} :
    segment Tensor.places own k = segment Tensor.places d k ↔
      sizeAt own k = sizeAt d k ∧ (0 < sizeAt own k → shapeAt own k = shapeAt d k) := by
  rw [segment, segment, sizeAt, sizeAt, shapeAt, shapeAt]
  cases own.lookup k with
  | none =>
    cases d.lookup k with
    | none => simp
    | some u =>
      constructor
      · intro hempty
        exact ⟨(indices_eq_nil_iff.1 hempty.symm).symm, fun hpos => absurd hpos (lt_irrefl 0)⟩
      · rintro ⟨hzero, -⟩
        exact (indices_eq_nil_iff.2 hzero.symm).symm
  | some t =>
    cases d.lookup k with
    | none =>
      constructor
      · intro hempty
        have hzero : t.numel = 0 := indices_eq_nil_iff.1 hempty
        exact ⟨hzero, fun hpos => absurd hzero (Nat.ne_of_gt hpos)⟩
      · rintro ⟨hzero, -⟩
        exact indices_eq_nil_iff.2 hzero
    | some u => simpa [Tensor.places] using indices_eq_iff

theorem offsets_origins_iff : origins Tensor.offsets own = origins Tensor.offsets d ↔
    SameSizes own d := by
  rw [origins_eq_iff]
  refine forall_congr' (fun k => ?_)
  rw [segment_offsets, segment_offsets]
  constructor
  · intro h
    simpa using congrArg List.length h
  · exact congrArg List.range

theorem places_origins_iff : origins Tensor.places own = origins Tensor.places d ↔
    SameShapes own d := by
  rw [origins_eq_iff]
  exact forall_congr' (fun k => segment_places_eq_iff)

theorem likeWithLike_iff [Field K] {cosine : List K → List K → K} {myId j : String}
    (hj : j ≠ myId) : LikeWithLike pos cosine myId own j d ↔
      (Compared own d → origins pos own = origins pos d) := by
  refine ⟨fun h => h.aligned, fun h => ⟨h, ?_⟩⟩
  intro hnot
  rw [recorded]
  by_cases hown : flattenTensors own ≠ []
  · rw [if_pos hown, if_neg hj, if_neg (fun hlength => hnot ⟨hown, hlength⟩)]
  · rw [if_neg hown]

/-- Like is compared with like exactly if the deltas are not compared or each key has a tensor of the
same shape in both, empty ones aside; for places in the flattened tensors, of the same size. -/
theorem recorded_like_iff [Field K] (cosine : List K → List K → K) {myId j : String}
    (hj : j ≠ myId) (own d : StateDict (Tensor K)) :
    (LikeWithLike Tensor.places cosine myId own j d ↔ ¬Compared own d ∨ SameShapes own d) ∧
      (LikeWithLike Tensor.offsets cosine myId own j d ↔ ¬Compared own d ∨ SameSizes own d) := by
  constructor
  · rw [likeWithLike_iff hj, places_origins_iff, imp_iff_not_or]
  · rw [likeWithLike_iff hj, offsets_origins_iff, imp_iff_not_or]

section Round
variable [Field K] [LinearOrder K]

def roundOf (cosine : List K → List K → Trust.Similarity K) (draw : String → K)
    (neighbors : List String) (d : Deltas K) : Trust.Round K where
  neighbors := neighbors
  draw := draw
  hasDelta := !(flattenTensors d.own).isEmpty
  peers := fun j =>
    match d.received j with
    | none => .missing
    | some dj =>
      if (flattenTensors dj).length = (flattenTensors d.own).length then
        .similar (cosine (flattenTensors d.own) (flattenTensors dj))
      else .otherShape

theorem peerImprovement?_roundOf (cosine : List K → List K → Trust.Similarity K)
    (draw : String → K) (neighbors : List String) (d : Deltas K) (myId j : String) :
    Trust.peerImprovement? myId (roundOf cosine draw neighbors d) j =
      if j ∈ myId :: neighbors then
        (d.delta? myId j).map (recorded (fun a b => (cosine a b).val) myId d.own j)
      else none := by
  have hdelta : (!(flattenTensors d.own).isEmpty) = true ↔ flattenTensors d.own ≠ [] := by
    simp
  rw [Trust.peerImprovement?]
  by_cases hj : j = myId
  · subst hj
    rw [if_pos rfl, if_pos List.mem_cons_self, Deltas.delta?_own]
    simp only [recorded, roundOf, hdelta, Option.map_some, if_true]
  · have hmem : j ∈ myId :: neighbors ↔ j ∈ neighbors := by simp [hj]
    rw [if_neg hj, Deltas.delta?_of_ne _ _ hj]
    simp only [hmem, roundOf]
    congr 1
    cases d.received j with
    | none => rfl
    | some dj =>
      by_cases hlength : (flattenTensors dj).length = (flattenTensors d.own).length
      · simp [recorded, hj, hlength]
      · simp [recorded, hj, hlength]

theorem lookup_filterMap {V : Type} (f : String → Option V) (ns : List String) (j : String) :
    (ns.filterMap (fun i => (f i).map (fun x => (i, x)))).lookup j = if j ∈ ns then f j else none := by
  induction ns with
  | nil => rfl
  | cons i ns ih =>
    rw [List.filterMap_cons]
    by_cases hij : j = i
    · subst hij
      cases hf : f j with
      | none => simp [ih, hf]
      | some x => simp
    · cases f i with
      | none => simp [ih, hij]
      | some x =>
        rw [Option.map_some, List.lookup_cons, beq_false_of_ne hij]
        simp [ih, hij]

theorem lookup_peerImprovements (cosine : List K → List K → Trust.Similarity K)
    (draw : String → K) {neighbors : List String} (d : Deltas K) {myId : String}
    (h : (myId :: neighbors).Nodup) (j : String) :
    (peerImprovements (fun a b => (cosine a b).val) myId d.own
        (availableDeltas myId neighbors d)).lookup j =
      Trust.peerImprovement? myId (roundOf cosine draw neighbors d) j := by
  have hparts : (fun i => ((d.delta? myId i).map (fun sd => (i, sd))).map (fun e =>
      (e.1, recorded (fun a b => (cosine a b).val) myId d.own e.1 e.2))) =
      fun i => ((d.delta? myId i).map (recorded (fun a b => (cosine a b).val) myId d.own i)).map
        (fun x => (i, x)) := by
    funext i
    cases d.delta? myId i <;> rfl
  rw [peerImprovement?_roundOf, peerImprovements, availableDeltas_eq h, List.map_filterMap, hparts,
    lookup_filterMap]

end Round

def oneTwo (k : Name) : StateDict (Tensor ℚ) :=
  AList.singleton k ⟨[2], fun i => i.val + 1⟩

theorem recorded_like_sample :
    LikeWithLike Tensor.places (fun _ _ => 1) "me" (oneTwo ['a']) "peer" (oneTwo ['a']) :=
  (recorded_like_iff _ (by decide) _ _).1.2 (Or.inr (fun _ => ⟨rfl, fun _ => rfl⟩))

/-- The tensor of one key is compared with that of another. -/
theorem otherKey_compared : Compared (oneTwo ['a']) (oneTwo ['b']) ∧
    ¬LikeWithLike Tensor.places (fun _ _ => 1) "me" (oneTwo ['a']) "peer" (oneTwo ['b']) ∧
    ¬LikeWithLike Tensor.offsets (fun _ _ => 1) "me" (oneTwo ['a']) "peer" (oneTwo ['b']) := by
  have hcompared : Compared (oneTwo ['a']) (oneTwo ['b']) := by
    rw [Compared]
    decide +kernel
  refine ⟨hcompared, fun h => absurd (h.aligned hcompared) ?_,
    fun h => absurd (h.aligned hcompared) ?_⟩
  · decide +kernel
  · decide +kernel

end Slakshna.Engine

import Slakshna.Engine.Aggregate

/-! When the aggregate is an average of the deltas that are there: the weights sum up to one over all
nodes, so a node that delivers nothing pulls the sum towards zero. -/
namespace Slakshna.Engine
open Checkpoint Trust Softmax
variable {K : Type} [Field K]

section Weights
variable [LinearOrder K] [IsStrictOrderedRing K] {exp : K → K} (hexp : ∀ x, 0 < exp x)
variable {s : NodeState K} {neighbors : List String}

omit [Field K] [LinearOrder K] [IsStrictOrderedRing K] in
theorem mem_allNodes_iff {j : String} : j ∈ s.allNodes neighbors ↔ j ∈ s.myId :: neighbors := by
  rw [NodeState.allNodes, List.mem_mergeSort]

def NodeState.scores (s : NodeState K) (neighbors : List String) : List K :=
  (s.allNodes neighbors).map (alphaOf (initialise s.draw (s.allNodes neighbors) s.alpha))

omit [LinearOrder K] [IsStrictOrderedRing K] in
theorem weight_eq {j : String} (hj : j ∈ s.myId :: neighbors) :
    s.weight exp neighbors j =
      exp (alphaOf (initialise s.draw (s.allNodes neighbors) s.alpha) j) /
        denominator exp (s.scores neighbors) := by
  rw [NodeState.weight, NodeState.trustWeights, lookup_weights _ _ _ (mem_allNodes_iff.2 hj)]
  rfl

include hexp

theorem weight_pos : ∀ j ∈ s.myId :: neighbors, 0 < s.weight exp neighbors j := by
  intro j hj
  rw [weight_eq hj]
  exact div_pos (hexp _)
    (denominator_pos hexp (List.mem_map_of_mem (mem_allNodes_iff.2 hj)))

theorem sum_weight : ((s.myId :: neighbors).map (s.weight exp neighbors)).sum = 1 := by
  have hperm : (s.myId :: neighbors).Perm (s.allNodes neighbors) := (List.mergeSort_perm _ _).symm
  have hne : s.scores neighbors ≠ [] := by
    apply List.ne_nil_of_mem
    exact List.mem_map_of_mem (mem_allNodes_iff.2 List.mem_cons_self)
  rw [(hperm.map _).sum_eq, ← sum_weights hexp hne, NodeState.scores, List.map_map]
  congr 1
  apply List.map_congr_left
  intro j hj
  exact weight_eq (mem_allNodes_iff.1 hj)

end Weights

section Entry
variable {exp : K → K} {s : NodeState K} {d : Deltas K} {neighbors : List String} {k : Name}

def part (shape : List ℕ) (i : ℕ) (v : Option (Tensor K)) : K := v.elim 0 (share shape i)

theorem entry_foldl_addTo {cs : List (K × Tensor K)} {t : Tensor K}
    (h : cs.foldl addTo none = some t) (i : ℕ) :
    t.entry i = (cs.map (fun c => c.1 * share t.shape i c.2)).sum := by
  cases cs with
  | nil => cases h
  | cons c cs =>
    obtain ⟨t', ht', hshape, hentry⟩ := foldl_addTo_none c cs
    obtain rfl : t' = t := Option.some.inj (ht'.symm.trans h)
    rw [hentry, hshape]

theorem sum_filterMap (w : String → K) (f : String → Option (Tensor K)) (shape : List ℕ) (i : ℕ)
    (l : List String) :
    ((l.filterMap (fun j => (f j).map (fun v => (w j, v)))).map
      (fun c => c.1 * share shape i c.2)).sum =
        Average.weighted w (fun j => part shape i (f j)) l := by
  induction l with
  | nil => rfl
  | cons j l ih =>
    rw [List.filterMap_cons, Average.weighted_cons, ← ih]
    cases f j with
    | none => simp [part]
    | some v => rfl

theorem entry_deltaAgg (h : (s.myId :: neighbors).Nodup) {t : Tensor K}
    (ht : (s.deltaAgg exp neighbors d).lookup k = some t) (i : ℕ) :
    t.entry i = Average.weighted (s.weight exp neighbors)
      (fun j => part t.shape i (d.held s.myId k j)) (s.myId :: neighbors) := by
  rw [lookup_deltaAgg h] at ht
  rw [entry_foldl_addTo ht, sum_filterMap]

end Entry

section Same
variable {s : NodeState K} {d : Deltas K} {neighbors : List String} {k : Name} {v : Tensor K}

def weightOfAvailable (exp : K → K) (s : NodeState K) (d : Deltas K) (neighbors : List String) : K :=
  Average.weighted (s.weight exp neighbors)
    (fun j => if (d.delta? s.myId j).isSome then 1 else 0) (s.myId :: neighbors)

theorem deltaAgg_of_same (exp : K → K) (h : (s.myId :: neighbors).Nodup)
    (hsame : ∀ j ∈ s.myId :: neighbors, ∀ sd, d.delta? s.myId j = some sd → sd.lookup k = some v) :
    ∃ t, (s.deltaAgg exp neighbors d).lookup k = some t ∧ t.shape = v.shape ∧
      ∀ i, t.entry i = weightOfAvailable exp s d neighbors * v.entry i := by
  have hown : d.own.lookup k = some v :=
    hsame s.myId List.mem_cons_self d.own (d.delta?_own s.myId)
  have hshape := shape_deltaAgg exp d k h
  rw [Deltas.firstHeld, List.findSome?_cons, Deltas.held_own, hown] at hshape
  obtain ⟨t, ht, htv⟩ := Option.map_eq_some_iff.1 hshape
  refine ⟨t, ht, htv, ?_⟩
  intro i
  rw [entry_deltaAgg h ht, weightOfAvailable, ← Average.weighted_mul_right]
  apply Average.weighted_congr
  intro j hj
  rw [htv, Deltas.held]
  cases hsd : d.delta? s.myId j with
  | none => simp [part]
  | some sd => simp [part, share, hsame j hj sd hsd]

end Same

section Order
variable [LinearOrder K] [IsStrictOrderedRing K] {exp : K → K} (hexp : ∀ x, 0 < exp x)
variable {s : NodeState K} {d : Deltas K} {neighbors : List String} {k : Name}
include hexp

theorem weightOfAvailable_eq_one_iff (h : (s.myId :: neighbors).Nodup) :
    weightOfAvailable exp s d neighbors = 1 ↔ ∀ j ∈ neighbors, d.received j ≠ none := by
  rw [weightOfAvailable, Average.weighted_part_eq_one_iff (weight_pos hexp) (sum_weight hexp),
    List.forall_mem_cons, Deltas.delta?_own, and_iff_right (Option.isSome_some)]
  apply forall₂_congr
  intro j hj
  have hne : j ≠ s.myId := fun heq => (List.nodup_cons.1 h).1 (heq ▸ hj)
  rw [Deltas.delta?_of_ne _ _ hne, Option.isSome_iff_ne_none]

theorem deltaAgg_same_iff {v : Tensor K} (h : (s.myId :: neighbors).Nodup)
    (hsame : ∀ j ∈ s.myId :: neighbors, ∀ sd, d.delta? s.myId j = some sd → sd.lookup k = some v) :
    (s.deltaAgg exp neighbors d).lookup k = some v ↔
      (∀ j ∈ neighbors, d.received j ≠ none) ∨ ∀ i, v.entry i = 0 := by
  obtain ⟨t, ht, hshape, hentry⟩ := deltaAgg_of_same exp h hsame
  rw [ht, Option.some.injEq, ← weightOfAvailable_eq_one_iff hexp h]
  constructor
  · rintro rfl
    by_cases hone : weightOfAvailable exp s d neighbors = 1
    · exact .inl hone
    · right
      intro i
      by_contra hzero
      exact hone (mul_right_cancel₀ hzero ((hentry i).symm.trans (one_mul _).symm))
  · intro hcase
    apply Tensor.ext_entry hshape
    intro i
    rw [hentry]
    rcases hcase with hone | hzero
    · rw [hone, one_mul]
    · rw [hzero, mul_zero]

end Order

def layout (sd : StateDict (Tensor K)) (k : Name) : Option (List ℕ) :=
  (sd.lookup k).map Tensor.shape

def SameLayout (d d' : Deltas K) : Prop :=
  layout d'.own = layout d.own ∧ ∀ j, (d'.received j).map layout = (d.received j).map layout

section Layout
variable {d d' : Deltas K} {k : Name}

omit [Field K] in
theorem SameLayout.refl (d : Deltas K) : SameLayout d d := ⟨rfl, fun _ => rfl⟩

omit [Field K] in
theorem SameLayout.held (h : SameLayout d d') (myId : String) (k : Name) (j : String) :
    (d'.held myId k j).map Tensor.shape = (d.held myId k j).map Tensor.shape := by
  have hlayout : (d'.delta? myId j).map layout = (d.delta? myId j).map layout := by
    rw [Deltas.delta?, Deltas.delta?]
    split
    · exact congrArg some h.1
    · exact h.2 j
  have hread : ∀ e : Deltas K, (e.held myId k j).map Tensor.shape =
      ((e.delta? myId j).map layout).bind (fun shapes => shapes k) := by
    intro e
    rw [Deltas.held]
    cases e.delta? myId j <;> rfl
  rw [hread, hread, hlayout]

omit [Field K] in
theorem SameLayout.firstHeld (h : SameLayout d d') (myId : String) (neighbors : List String)
    (k : Name) : (d'.firstHeld myId neighbors k).map Tensor.shape =
      (d.firstHeld myId neighbors k).map Tensor.shape := by
  rw [Deltas.firstHeld, Deltas.firstHeld, List.map_findSome?, List.map_findSome?]
  congr 1
  funext j
  exact h.held myId k j

def Tensor.ones (t : Tensor K) : Tensor K := t.reshape (fun _ => 1)

theorem entry_ones {t : Tensor K} {i : ℕ} (hi : i < t.numel) : t.ones.entry i = 1 := dif_pos hi

theorem part_ones {shape : List ℕ} {i : ℕ} (hi : i < shape.prod) (v : Option (Tensor K)) :
    part shape i (v.map Tensor.ones) = if v.map Tensor.shape = some shape then 1 else 0 := by
  cases v with
  | none => rfl
  | some v =>
    by_cases h : v.shape = shape
    · subst h
      rw [Option.map_some, Option.map_some, if_pos rfl]
      exact (if_pos rfl).trans (entry_ones hi)
    · rw [Option.map_some, Option.map_some, if_neg (fun hshape => h (Option.some.inj hshape))]
      exact if_neg h

def Deltas.ones (d : Deltas K) : Deltas K where
  own := HashMap.mapValues Tensor.ones d.own
  received := fun j => (d.received j).map (HashMap.mapValues Tensor.ones)

theorem layout_ones (sd : StateDict (Tensor K)) :
    layout (HashMap.mapValues Tensor.ones sd) = layout sd := by
  funext k
  rw [layout, HashMap.lookup_mapValues, Option.map_map]
  rfl

theorem sameLayout_ones (d : Deltas K) : SameLayout d d.ones := by
  refine ⟨layout_ones d.own, ?_⟩
  intro j
  rw [Deltas.ones, Option.map_map]
  exact congrArg (fun f => (d.received j).map f) (funext layout_ones)

theorem held_ones (myId : String) (k : Name) (j : String) :
    d.ones.held myId k j = (d.held myId k j).map Tensor.ones := by
  have hdelta : d.ones.delta? myId j = (d.delta? myId j).map (HashMap.mapValues Tensor.ones) := by
    rw [Deltas.delta?, Deltas.delta?]
    split <;> rfl
  rw [Deltas.held, Deltas.held, hdelta]
  cases d.delta? myId j with
  | none => rfl
  | some sd => exact HashMap.lookup_mapValues Tensor.ones sd k

end Layout

/-- Under each key whose first tensor has any entries, all nodes are there with a tensor of its
shape. -/
def Complete (myId : String) (neighbors : List String) (d : Deltas K) : Prop :=
  ∀ k u, d.firstHeld myId neighbors k = some u → u.numel ≠ 0 →
    ∀ j ∈ myId :: neighbors, ∃ v, d.held myId k j = some v ∧ v.shape = u.shape

omit [Field K] in
theorem Complete.sameLayout {d d' : Deltas K} {myId : String} {neighbors : List String}
    (h : Complete myId neighbors d) (hlayout : SameLayout d d') : Complete myId neighbors d' := by
  intro k u hu hnumel j hj
  have hshape := hlayout.firstHeld myId neighbors k
  rw [hu] at hshape
  obtain ⟨u₀, hu₀, hsame⟩ := Option.map_eq_some_iff.1 hshape.symm
  have hnumel₀ : u₀.numel ≠ 0 := by
    rw [Tensor.numel, hsame]
    exact hnumel
  obtain ⟨v₀, hv₀, hvu⟩ := h k u₀ hu₀ hnumel₀ j hj
  have hheld := hlayout.held myId k j
  rw [hv₀] at hheld
  obtain ⟨v, hv, hvv⟩ := Option.map_eq_some_iff.1 hheld
  exact ⟨v, hv, hvv.trans (hvu.trans hsame)⟩

section Bounds
variable [LinearOrder K] [IsStrictOrderedRing K] {exp : K → K}
variable {s : NodeState K} {d : Deltas K} {neighbors : List String}

def Between (exp : K → K) (s : NodeState K) (neighbors : List String) (d : Deltas K) : Prop :=
  ∀ k t, (s.deltaAgg exp neighbors d).lookup k = some t → ∀ i < t.numel,
    (∃ j ∈ s.myId :: neighbors, ∃ v, d.held s.myId k j = some v ∧ v.shape = t.shape ∧
      v.entry i ≤ t.entry i) ∧
    ∃ j ∈ s.myId :: neighbors, ∃ v, d.held s.myId k j = some v ∧ v.shape = t.shape ∧
      t.entry i ≤ v.entry i

section Positive
variable (hexp : ∀ x, 0 < exp x)
include hexp

theorem Complete.between (h : Complete s.myId neighbors d)
    (hset : (s.myId :: neighbors).Nodup) : Between exp s neighbors d := by
  intro k t ht i hi
  have hshape := shape_deltaAgg exp d k hset
  rw [ht] at hshape
  obtain ⟨u, hu, hut⟩ := Option.map_eq_some_iff.1 hshape.symm
  have hpart : ∀ j ∈ s.myId :: neighbors, ∃ v, d.held s.myId k j = some v ∧ v.shape = t.shape ∧
      part t.shape i (d.held s.myId k j) = v.entry i := by
    intro j hj
    have hnumel : u.numel ≠ 0 := by
      rw [Tensor.numel, hut]
      exact Nat.ne_of_gt (Nat.zero_lt_of_lt hi)
    obtain ⟨v, hv, hvu⟩ := h k u hu hnumel j hj
    refine ⟨v, hv, hvu.trans hut, ?_⟩
    rw [hv]
    exact if_pos (hvu.trans hut)
  rw [entry_deltaAgg hset ht]
  constructor
  · obtain ⟨j, hj, hle⟩ := Average.exists_le_weighted
      (x := fun j => part t.shape i (d.held s.myId k j)) (weight_pos hexp) (sum_weight hexp)
    obtain ⟨v, hv, hshape, hentry⟩ := hpart j hj
    exact ⟨j, hj, v, hv, hshape, hentry ▸ hle⟩
  · obtain ⟨j, hj, hle⟩ := Average.exists_weighted_le
      (x := fun j => part t.shape i (d.held s.myId k j)) (weight_pos hexp) (sum_weight hexp)
    obtain ⟨v, hv, hshape, hentry⟩ := hpart j hj
    exact ⟨j, hj, v, hv, hshape, hentry ▸ hle⟩

theorem complete_of_between_ones (hset : (s.myId :: neighbors).Nodup)
    (h : Between exp s neighbors d.ones) : Complete s.myId neighbors d := by
  intro k u hu hnumel j hj
  by_contra hmissing
  have hshape := shape_deltaAgg exp d.ones k hset
  rw [(sameLayout_ones d).firstHeld, hu] at hshape
  obtain ⟨t, ht, hsame⟩ := Option.map_eq_some_iff.1 hshape
  have hpos : 0 < t.shape.prod := by
    rw [hsame]
    exact Nat.pos_of_ne_zero hnumel
  obtain ⟨⟨j', -, v, hv, hvt, hle⟩, -⟩ := h k t ht 0 hpos
  have hone : v.entry 0 = 1 := by
    rw [held_ones] at hv
    obtain ⟨v₀, -, rfl⟩ := Option.map_eq_some_iff.1 hv
    apply entry_ones
    have hshape₀ : v₀.shape = t.shape := hvt
    rw [Tensor.numel, hshape₀]
    exact hpos
  have hlt := Average.weighted_part_lt (weight_pos hexp) (sum_weight hexp)
    (P := fun j => (d.held s.myId k j).map Tensor.shape = some t.shape) ⟨j, hj, ?_⟩
  · rw [hone, entry_deltaAgg hset ht] at hle
    simp only [held_ones, part_ones hpos] at hle
    exact absurd hlt hle.not_gt
  · intro hheld
    obtain ⟨v₀, hv₀, hvt₀⟩ := Option.map_eq_some_iff.1 hheld
    exact hmissing ⟨v₀, hv₀, hvt₀.trans hsame⟩

end Positive

end Bounds

/-- The aggregate is an average of the deltas that are there in two respects. A tensor that all of
them have is kept exactly if no neighbour is missing or the tensor is zero. The entries lie between
the delivered ones, whatever these are, exactly if every node delivers each key in one shape. -/
theorem deltaAgg_average_iff (s : NodeState ℝ) (d : Deltas ℝ) (neighbors : List String)
    (hset : (s.myId :: neighbors).Nodup) :
    (∀ k v, (∀ j ∈ s.myId :: neighbors, ∀ sd, d.delta? s.myId j = some sd →
        sd.lookup k = some v) →
      ((s.deltaAgg Real.exp neighbors d).lookup k = some v ↔
        (∀ j ∈ neighbors, d.received j ≠ none) ∨ ∀ i, v.entry i = 0)) ∧
    ((∀ d', SameLayout d d' → Between Real.exp s neighbors d') ↔
      Complete s.myId neighbors d) := by
  constructor
  · exact fun k v hsame => deltaAgg_same_iff Real.exp_pos hset hsame
  · constructor
    · intro h
      exact complete_of_between_ones Real.exp_pos hset (h d.ones (sameLayout_ones d))
    · intro h d' hlayout
      exact (h.sameLayout hlayout).between Real.exp_pos hset

def oneEntry : Tensor ℝ := ⟨[1], fun _ => 1⟩

def alone : Deltas ℝ := ⟨AList.singleton ['w'] oneEntry, fun _ => none⟩

theorem alone_own : ∀ j ∈ ["a", "b"], ∀ sd, alone.delta? "a" j = some sd →
    sd.lookup ['w'] = some oneEntry := by
  intro j _ sd hsd
  by_cases hj : j = "a"
  · rw [hj, Deltas.delta?_own] at hsd
    rw [← Option.some.inj hsd]
    exact AList.lookup_insert ∅
  · rw [Deltas.delta?_of_ne _ _ hj] at hsd
    cases hsd

/-- All deltas that are there hold one entry of one, and the aggregate does not. -/
theorem alone_shrinks :
    (∀ j ∈ ["a", "b"], ∀ sd, alone.delta? "a" j = some sd →
      sd.lookup ['w'] = some oneEntry) ∧
    ((newNode ℝ).deltaAgg Real.exp ["b"] alone).lookup ['w'] ≠ some oneEntry := by
  refine ⟨alone_own, ?_⟩
  rw [ne_eq, deltaAgg_same_iff Real.exp_pos (s := newNode ℝ) (by decide) alone_own, not_or]
  constructor
  · intro h
    exact h "b" (List.mem_singleton_self "b") rfl
  · intro h
    have hone : oneEntry.entry 0 = 1 := dif_pos Nat.one_pos
    exact one_ne_zero (hone.symm.trans (h 0))

theorem alone_average_iff :
    (((newNode ℝ).deltaAgg Real.exp ["b"] alone).lookup ['w'] = some oneEntry ↔
      (∀ j ∈ ["b"], alone.received j ≠ none) ∨ ∀ i, oneEntry.entry i = 0) ∧
    ((∀ d', SameLayout alone d' → Between Real.exp (newNode ℝ) ["b"] d') ↔
      Complete "a" ["b"] alone) := by
  have haverage := deltaAgg_average_iff (newNode ℝ) alone ["b"] (by decide)
  exact ⟨haverage.1 ['w'] oneEntry alone_own, haverage.2⟩

end Slakshna.Engine

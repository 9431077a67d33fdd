import Mathlib.Data.String.Basic
import Slakshna.Lib.Average
import Slakshna.Engine.Trust
import Slakshna.Engine.Delta

/-! The trust-weighted sum of the deltas that are there, in exact arithmetic. Each key of the sum has
the shape that was met first, and the weights count all nodes. -/
namespace Slakshna.Engine
open Checkpoint Trust Softmax
variable {K : Type} [Field K]

def setItem {V : Type} (d : List (String × V)) (k : String) (v : V) : List (String × V) :=
  if k ∈ d.map Prod.fst then d.map (fun e => if e.1 = k then (k, v) else e) else d ++ [(k, v)]

/-- The node's own delta and the neighbours' as received; a delta that is missing or that cannot be
decoded is `none`. -/
structure Deltas (K : Type) where
  own : StateDict (Tensor K)
  received : String → Option (StateDict (Tensor K))

def availableDeltas (myId : String) (neighbors : List String) (d : Deltas K) :
    List (String × StateDict (Tensor K)) :=
  neighbors.foldl (fun available j =>
    match d.received j with
    | some loaded => setItem available j loaded
    | none => available) [(myId, d.own)]

def addDelta (weight : K) (agg delta : StateDict (Tensor K)) : StateDict (Tensor K) :=
  delta.entries.foldl (fun agg e =>
    agg.upsert e.1 e.2.zerosLike (fun acc => acc.addScaled weight e.2)) agg

def aggregate (w : HashMap String K) (available : List (String × StateDict (Tensor K))) :
    StateDict (Tensor K) :=
  available.foldl (fun agg e => addDelta ((w.lookup e.1).getD 0) agg e.2) ∅

structure NodeState (K : Type) where
  myId : String
  alpha : Alpha K
  draw : String → K

namespace NodeState
variable (exp : K → K) (s : NodeState K)

def allNodes (neighbors : List String) : List String := (s.myId :: neighbors).mergeSort

def trustWeights (neighbors : List String) : HashMap String K :=
  weights exp (s.allNodes neighbors) (initialise s.draw (s.allNodes neighbors) s.alpha)

def deltaAgg (neighbors : List String) (d : Deltas K) : StateDict (Tensor K) :=
  aggregate (s.trustWeights exp neighbors) (availableDeltas s.myId neighbors d)

end NodeState

section Key
variable {k : Name}

def addTo (acc : Option (Tensor K)) (c : K × Tensor K) : Option (Tensor K) :=
  some ((acc.getD c.2.zerosLike).addScaled c.1 c.2)

def contributions (w : HashMap String K) (available : List (String × StateDict (Tensor K)))
    (k : Name) : List (K × Tensor K) :=
  available.filterMap (fun e => (e.2.lookup k).map (fun v => ((w.lookup e.1).getD 0, v)))

theorem lookup_addDelta (weight : K) (agg delta : StateDict (Tensor K)) :
    (addDelta weight agg delta).lookup k =
      match delta.lookup k with
      | none => agg.lookup k
      | some v => addTo (agg.lookup k) (weight, v) := by
  have hfold := HashMap.lookup_foldl_upsert delta Tensor.zerosLike
    (fun v acc => acc.addScaled weight v) agg k
  rw [addDelta, hfold]
  cases delta.lookup k <;> rfl

theorem lookup_aggregate (w : HashMap String K)
    (available : List (String × StateDict (Tensor K))) :
    (aggregate w available).lookup k = (contributions w available k).foldl addTo none := by
  have hfold : ∀ agg : StateDict (Tensor K),
      (available.foldl (fun agg e => addDelta ((w.lookup e.1).getD 0) agg e.2) agg).lookup k =
        (contributions w available k).foldl addTo (agg.lookup k) := by
    induction available with
    | nil => exact fun agg => rfl
    | cons e available ih =>
      intro agg
      rw [List.foldl_cons, ih, lookup_addDelta, contributions, contributions, List.filterMap_cons]
      cases e.2.lookup k with
      | none => rfl
      | some v => rfl
  exact hfold ∅

def share (shape : List ℕ) (i : ℕ) (v : Tensor K) : K := if v.shape = shape then v.entry i else 0

theorem foldl_addTo (cs : List (K × Tensor K)) (acc : Tensor K) :
    ∃ t, cs.foldl addTo (some acc) = some t ∧ t.shape = acc.shape ∧
      ∀ i, t.entry i = acc.entry i + (cs.map (fun c => c.1 * share acc.shape i c.2)).sum := by
  induction cs generalizing acc with
  | nil => exact ⟨acc, rfl, rfl, fun i => by simp⟩
  | cons c cs ih =>
    obtain ⟨t, ht, hshape, hentry⟩ := ih (acc.addScaled c.1 c.2)
    rw [Tensor.shape_addScaled] at hshape hentry
    refine ⟨t, ht, hshape, ?_⟩
    intro i
    rw [hentry, List.map_cons, List.sum_cons, share, ← add_assoc]
    by_cases h : c.2.shape = acc.shape
    · rw [Tensor.entry_addScaled h, if_pos h]
    · rw [Tensor.addScaled_of_ne h, if_neg h, mul_zero, add_zero]

theorem foldl_addTo_none (c : K × Tensor K) (cs : List (K × Tensor K)) :
    ∃ t, (c :: cs).foldl addTo none = some t ∧ t.shape = c.2.shape ∧
      ∀ i, t.entry i = ((c :: cs).map (fun c' => c'.1 * share c.2.shape i c'.2)).sum := by
  obtain ⟨t, ht, hshape, hentry⟩ := foldl_addTo cs (c.2.zerosLike.addScaled c.1 c.2)
  rw [Tensor.shape_addScaled, Tensor.shape_zerosLike] at hshape hentry
  refine ⟨t, ht, hshape, ?_⟩
  intro i
  rw [hentry, Tensor.entry_addScaled (Tensor.shape_zerosLike _).symm, Tensor.entry_zerosLike,
    zero_add, List.map_cons, List.sum_cons, share, if_pos rfl]

theorem shape_foldl_addTo (cs : List (K × Tensor K)) :
    (cs.foldl addTo none).map Tensor.shape = (cs.map (fun c => c.2.shape)).head? := by
  cases cs with
  | nil => rfl
  | cons c cs =>
    obtain ⟨t, ht, hshape, -⟩ := foldl_addTo_none c cs
    rw [ht, List.map_cons, List.head?_cons, ← hshape]
    rfl

theorem foldl_addTo_perm {cs cs' : List (K × Tensor K)} (hperm : cs.Perm cs')
    (hhead : ∀ c c', cs.head? = some c → cs'.head? = some c' → c.2.shape = c'.2.shape) :
    cs.foldl addTo none = cs'.foldl addTo none := by
  cases cs with
  | nil => rw [hperm.nil_eq]
  | cons c cs =>
    cases cs' with
    | nil => exact absurd hperm.length_eq (by simp)
    | cons c' cs' =>
      obtain ⟨t, ht, hshape, hentry⟩ := foldl_addTo_none c cs
      obtain ⟨t', ht', hshape', hentry'⟩ := foldl_addTo_none c' cs'
      have hsame := hhead c c' rfl rfl
      rw [ht, ht']
      apply congrArg some
      apply Tensor.ext_entry (hshape.trans (hsame.trans hshape'.symm))
      intro i
      rw [hentry, hentry', hsame]
      exact (hperm.map _).sum_eq

end Key

namespace Deltas
variable (d : Deltas K) (myId : String)

def delta? (j : String) : Option (StateDict (Tensor K)) := if j = myId then some d.own else d.received j

def held (k : Name) (j : String) : Option (Tensor K) := (d.delta? myId j).bind (fun sd => sd.lookup k)

def firstHeld (neighbors : List String) (k : Name) : Option (Tensor K) :=
  (myId :: neighbors).findSome? (d.held myId k)

omit [Field K] in
@[simp] theorem delta?_own : d.delta? myId myId = some d.own := if_pos rfl

omit [Field K] in
theorem delta?_of_ne {j : String} (h : j ≠ myId) : d.delta? myId j = d.received j := if_neg h

omit [Field K] in
theorem delta?_of_forall {P : StateDict (Tensor K) → Prop} (hown : P d.own)
    (hreceived : ∀ j sd, d.received j = some sd → P sd) {j : String} {sd : StateDict (Tensor K)}
    (h : d.delta? myId j = some sd) : P sd := by
  rw [delta?] at h
  split at h
  · exact Option.some.inj h ▸ hown
  · exact hreceived j sd h

omit [Field K] in
theorem held_own (k : Name) : d.held myId k myId = d.own.lookup k := by
  rw [held, delta?_own]
  rfl

end Deltas

section Nodes
variable {exp : K → K} {s : NodeState K} {d : Deltas K} {neighbors : List String} {k : Name}

theorem setItem_new {V : Type} {l : List (String × V)} {j : String} (h : j ∉ l.map Prod.fst)
    (v : V) : setItem l j v = l ++ [(j, v)] := if_neg h

omit [Field K] in
theorem availableDeltas_eq {myId : String} (h : (myId :: neighbors).Nodup) :
    availableDeltas myId neighbors d =
      (myId :: neighbors).filterMap (fun j => (d.delta? myId j).map (fun sd => (j, sd))) := by
  have hfold : ∀ (ns : List String) (l : List (String × StateDict (Tensor K))), ns.Nodup →
      (∀ j ∈ ns, j ∉ l.map Prod.fst ∧ j ≠ myId) →
      ns.foldl (fun available j =>
        match d.received j with
        | some loaded => setItem available j loaded
        | none => available) l =
      l ++ ns.filterMap (fun j => (d.delta? myId j).map (fun sd => (j, sd))) := by
    intro ns
    induction ns with
    | nil => simp
    | cons j ns ih =>
      intro l hns hnew
      obtain ⟨hj, hrest⟩ := List.nodup_cons.1 hns
      obtain ⟨⟨hl, hne⟩, hnews⟩ := List.forall_mem_cons.1 hnew
      rw [List.foldl_cons, List.filterMap_cons, Deltas.delta?_of_ne _ _ hne]
      cases d.received j with
      | none => exact ih l hrest hnews
      | some loaded =>
        have hnext : ∀ i ∈ ns, i ∉ (setItem l j loaded).map Prod.fst ∧ i ≠ myId := by
          intro i hi
          refine ⟨?_, (hnews i hi).2⟩
          rw [setItem_new hl, List.map_append, List.mem_append, not_or]
          refine ⟨(hnews i hi).1, ?_⟩
          intro hij
          obtain rfl : i = j := List.mem_singleton.1 hij
          exact hj hi
        rw [ih _ hrest hnext, setItem_new hl, List.append_assoc]
        rfl
  obtain ⟨hmy, hns⟩ := List.nodup_cons.1 h
  rw [availableDeltas, hfold neighbors _ hns, List.filterMap_cons, Deltas.delta?_own]
  · rfl
  · intro j hj
    have hne : j ≠ myId := fun heq => hmy (heq ▸ hj)
    exact ⟨by simpa using hne, hne⟩

def NodeState.weight (exp : K → K) (s : NodeState K) (neighbors : List String) (j : String) : K :=
  ((s.trustWeights exp neighbors).lookup j).getD 0

theorem lookup_deltaAgg (h : (s.myId :: neighbors).Nodup) :
    (s.deltaAgg exp neighbors d).lookup k =
      ((s.myId :: neighbors).filterMap (fun j =>
        (d.held s.myId k j).map (fun v => (s.weight exp neighbors j, v)))).foldl addTo none := by
  rw [NodeState.deltaAgg, lookup_aggregate, availableDeltas_eq h, contributions,
    List.filterMap_filterMap]
  congr 1
  apply List.filterMap_congr
  intro j _
  rw [Deltas.held]
  cases d.delta? s.myId j <;> rfl

omit [Field K] in
theorem allNodes_perm {ns ns' : List String} (h : ns.Perm ns') :
    s.allNodes ns = s.allNodes ns' := by
  have hperm : (s.allNodes ns).Perm (s.allNodes ns') :=
    (List.mergeSort_perm _ _).trans ((h.cons s.myId).trans (List.mergeSort_perm _ _).symm)
  exact List.Perm.eq_of_sortedLE List.sortedLE_mergeSort List.sortedLE_mergeSort hperm

theorem weight_perm {ns ns' : List String} (h : ns.Perm ns') :
    s.weight exp ns = s.weight exp ns' := by
  funext j
  rw [NodeState.weight, NodeState.weight, NodeState.trustWeights, NodeState.trustWeights,
    allNodes_perm h]

theorem shape_deltaAgg (exp : K → K) (d : Deltas K) (k : Name)
    (h : (s.myId :: neighbors).Nodup) :
    ((s.deltaAgg exp neighbors d).lookup k).map Tensor.shape =
      (d.firstHeld s.myId neighbors k).map Tensor.shape := by
  rw [lookup_deltaAgg h, shape_foldl_addTo, List.map_filterMap, List.head?_filterMap,
    Deltas.firstHeld, List.map_findSome?]
  congr 1
  funext j
  rw [Option.map_map]
  rfl

theorem deltaAgg_eq_of_own {u : Tensor K} (hown : d.own.lookup k = some u) {ns ns' : List String}
    (hset : (s.myId :: ns).Nodup) (hperm : ns.Perm ns') :
    (s.deltaAgg exp ns d).lookup k = (s.deltaAgg exp ns' d).lookup k := by
  have hset' : (s.myId :: ns').Nodup := (hperm.cons s.myId).nodup_iff.1 hset
  rw [lookup_deltaAgg hset, lookup_deltaAgg hset', ← weight_perm hperm]
  apply foldl_addTo_perm ((hperm.cons s.myId).filterMap _)
  intro c c' hc hc'
  rw [List.filterMap_cons, Deltas.held_own, hown] at hc hc'
  rw [← Option.some.inj hc, ← Option.some.inj hc']

end Nodes

/-- All orders of the neighbours give one aggregate exactly if under each key that the node's own
delta lacks the available neighbours' tensors have one shape. -/
theorem deltaAgg_order_iff (exp : K → K) (s : NodeState K) (d : Deltas K) (neighbors : List String)
    (hset : (s.myId :: neighbors).Nodup) :
    (∀ ns ns' : List String, ns.Perm neighbors → ns'.Perm neighbors → ∀ k,
        (s.deltaAgg exp ns d).lookup k = (s.deltaAgg exp ns' d).lookup k) ↔
      ∀ k, d.own.lookup k = none → ∀ i ∈ neighbors, ∀ j ∈ neighbors, ∀ u v,
        d.held s.myId k i = some u → d.held s.myId k j = some v → u.shape = v.shape := by
  have hnodup : ∀ ns : List String, ns.Perm neighbors → (s.myId :: ns).Nodup :=
    fun ns hns => (hns.cons s.myId).nodup_iff.2 hset
  constructor
  · intro h k hown i hi j hj u v hu hv
    -- Each of the two nodes comes first in some order.
    have hfirst : ∀ i ∈ neighbors, ∀ u, d.held s.myId k i = some u →
        ((s.deltaAgg exp (i :: neighbors.erase i) d).lookup k).map Tensor.shape = some u.shape := by
      intro i hi u hu
      rw [shape_deltaAgg _ _ _ (hnodup _ (List.perm_cons_erase hi).symm), Deltas.firstHeld,
        List.findSome?_cons, Deltas.held_own, hown, List.findSome?_cons, hu]
      rfl
    have hsame := h _ _ (List.perm_cons_erase hi).symm (List.perm_cons_erase hj).symm k
    have hshapes := hfirst i hi u hu
    rw [hsame, hfirst j hj v hv] at hshapes
    exact (Option.some.inj hshapes).symm
  · intro h ns ns' hns hns' k
    have hperm : ns.Perm ns' := hns.trans hns'.symm
    cases hown : d.own.lookup k with
    | some u => exact deltaAgg_eq_of_own hown (hnodup ns hns) hperm
    | none =>
      rw [lookup_deltaAgg (hnodup ns hns), lookup_deltaAgg (hnodup ns' hns'), weight_perm hperm]
      apply foldl_addTo_perm ((hperm.cons s.myId).filterMap _)
      intro c c' hc hc'
      have hneighbor : ∀ (w : String → K) {l : List String} {c : K × Tensor K}, l.Perm neighbors →
          ((s.myId :: l).filterMap (fun j =>
            (d.held s.myId k j).map (fun v => (w j, v)))).head? = some c →
          ∃ i ∈ neighbors, d.held s.myId k i = some c.2 := by
        intro w l c hl hhead
        rw [List.filterMap_cons, Deltas.held_own, hown] at hhead
        obtain ⟨i, hi, hheld⟩ := List.mem_filterMap.1 (List.mem_of_head? hhead)
        obtain ⟨v, hv, rfl⟩ := Option.map_eq_some_iff.1 hheld
        exact ⟨i, hl.mem_iff.1 hi, hv⟩
      obtain ⟨i, hi, hu⟩ := hneighbor _ hns hc
      obtain ⟨j, hj, hv⟩ := hneighbor _ hns' hc'
      exact h k hown i hi j hj c.2 c'.2 hu hv

def newNode (K : Type) [Field K] : NodeState K := ⟨"a", ∅, fun _ => 0⟩

def twoShapes : Deltas ℚ where
  own := ∅
  received := fun j =>
    some (AList.singleton ['w'] (if j = "b" then ⟨[1], fun _ => 1⟩ else ⟨[2], fun _ => 1⟩))

/-- The shape of the sum is that of the neighbour named first. -/
theorem twoShapes_order :
    ((newNode ℚ).deltaAgg (fun _ => 1) ["b", "c"] twoShapes).lookup ['w'] ≠
      ((newNode ℚ).deltaAgg (fun _ => 1) ["c", "b"] twoShapes).lookup ['w'] := by
  intro hsame
  have hshapes := congrArg (Option.map Tensor.shape) hsame
  rw [shape_deltaAgg _ _ _ (by decide), shape_deltaAgg _ _ _ (by decide)] at hshapes
  revert hshapes
  decide +kernel

theorem twoShapes_order_iff :
    (∀ ns ns' : List String, ns.Perm ["b", "c"] → ns'.Perm ["b", "c"] → ∀ k,
        ((newNode ℚ).deltaAgg (fun _ => 1) ns twoShapes).lookup k =
          ((newNode ℚ).deltaAgg (fun _ => 1) ns' twoShapes).lookup k) ↔
      ∀ k, twoShapes.own.lookup k = none → ∀ i ∈ ["b", "c"], ∀ j ∈ ["b", "c"], ∀ u v,
        twoShapes.held "a" k i = some u → twoShapes.held "a" k j = some v → u.shape = v.shape :=
  deltaAgg_order_iff (fun _ => 1) (newNode ℚ) twoShapes ["b", "c"] (by decide)

end Slakshna.Engine

import Mathlib.Tactic.NormNum
import Mathlib.Tactic.Linarith
import Slakshna.Lib.HashMap
import Slakshna.Lib.Softmax

/-! How the engine of a node moves its trust in the others, round after round, in exact arithmetic.
The similarities come from torch and lie between -1 and 1. -/
namespace Slakshna.Trust
open Softmax
variable {K : Type*} [Field K]

abbrev Alpha (K : Type*) := HashMap String K

def alphaOf (alpha : Alpha K) (j : String) : K := (alpha.lookup j).getD 0

def initialise (draw : String → K) (nodes : List String) (alpha : Alpha K) : Alpha K :=
  nodes.foldl (fun alpha j => if j ∈ alpha then alpha else alpha.insert j (draw j)) alpha

def weights (exp : K → K) (nodes : List String) (alpha : Alpha K) : HashMap String K :=
  (nodes.zip (softmax exp (nodes.map (alphaOf alpha)))).foldl (fun w e => w.insert e.1 e.2) ∅

def beta : K := 0.1

/-- What one round makes of one parameter: `alpha += step`, then `alpha *= 0.98`. -/
def updated (alpha deltaL w : K) : K := (alpha + beta * deltaL * w * (1 - w)) * (98 / 100)

def trustUpdate (deltaL : String → K) (w : HashMap String K) (nodes : List String)
    (alpha : Alpha K) : Alpha K :=
  nodes.foldl (fun alpha j =>
    alpha.insert j (updated (alphaOf alpha j) (deltaL j) ((w.lookup j).getD 0))) alpha

section Round
variable [LinearOrder K]

abbrev Similarity (K : Type*) [Field K] [LinearOrder K] := Set.Icc (-1 : K) 1

inductive PeerDelta (K : Type*) [Field K] [LinearOrder K] where
  | missing
  | otherShape
  | similar (sim : Similarity K)

/-- One run of the engine: the neighbours it is given, the values it draws for nodes it does not
know, whether its own delta has any elements, and what it has of the others. -/
structure Round (K : Type*) [Field K] [LinearOrder K] where
  neighbors : List String
  draw : String → K
  hasDelta : Bool
  peers : String → PeerDelta K

def allNodes (myId : String) (r : Round K) : List String := (myId :: r.neighbors).mergeSort

def peerImprovement? (myId : String) (r : Round K) (j : String) : Option K :=
  if j = myId then some (if r.hasDelta then 1 else 0)
  else if j ∈ r.neighbors then
    match r.peers j with
    | .missing => none
    | .otherShape => some 0
    | .similar sim => some (if r.hasDelta then sim else 0)
  else none

def improvement (myId : String) (r : Round K) (j : String) : K :=
  (peerImprovement? myId r j).getD 0

def round (exp : K → K) (myId : String) (alpha : Alpha K) (r : Round K) : Alpha K :=
  let nodes := allNodes myId r
  let alpha := initialise r.draw nodes alpha
  trustUpdate (improvement myId r) (weights exp nodes alpha) nodes alpha

def rounds (exp : K → K) (myId : String) (alpha : Alpha K) (rs : List (Round K)) : Alpha K :=
  rs.foldl (round exp myId) alpha

def initialValue? (myId : String) (alpha : Alpha K) (rs : List (Round K)) (j : String) : Option K :=
  (alpha.lookup j).or ((rs.find? (fun r => j ∈ allNodes myId r)).map (fun r => r.draw j))

end Round

omit [Field K] in
theorem lookup_initialise (draw : String → K) (nodes : List String) (alpha : Alpha K) (j : String) :
    (initialise draw nodes alpha).lookup j =
      (alpha.lookup j).or (if j ∈ nodes then some (draw j) else none) := by
  induction nodes generalizing alpha with
  | nil => simp [initialise]
  | cons i nodes ih =>
    rw [initialise, List.foldl_cons, ← initialise, ih]
    by_cases hi : i ∈ alpha
    · rw [if_pos hi]
      by_cases hji : j = i
      · obtain ⟨a, ha⟩ := Option.isSome_iff_exists.1 (AList.lookup_isSome.2 hi)
        rw [hji, ha]
        rfl
      · simp [hji]
    · rw [if_neg hi]
      by_cases hji : j = i
      · rw [hji, AList.lookup_insert, AList.lookup_eq_none.2 hi]
        simp
      · rw [AList.lookup_insert_ne hji]
        simp [hji]

theorem lookup_weights_eq (exp : K → K) (nodes : List String) (alpha : Alpha K) (j : String) :
    (weights exp nodes alpha).lookup j =
      if j ∈ nodes then some (exp (alphaOf alpha j) / denominator exp (nodes.map (alphaOf alpha)))
      else none := by
  have hzip : nodes.zip (softmax exp (nodes.map (alphaOf alpha))) = nodes.map (fun i =>
      (i, exp (alphaOf alpha i) / denominator exp (nodes.map (alphaOf alpha)))) := by
    rw [softmax, List.map_map, List.zip_eq_zipWith, List.zipWith_map_right, List.zipWith_self]
    rfl
  rw [weights, hzip, List.foldl_map, HashMap.lookup_foldl_insert]
  rfl

theorem lookup_weights (exp : K → K) (nodes : List String) (alpha : Alpha K) {j : String}
    (hj : j ∈ nodes) : (weights exp nodes alpha).lookup j =
      some (exp (alphaOf alpha j) / denominator exp (nodes.map (alphaOf alpha))) := by
  rw [lookup_weights_eq, if_pos hj]

theorem alphaOf_trustUpdate (deltaL : String → K) (w : HashMap String K) {nodes : List String}
    (hn : nodes.Nodup) (alpha : Alpha K) (j : String) :
    alphaOf (trustUpdate deltaL w nodes alpha) j =
      if j ∈ nodes then updated (alphaOf alpha j) (deltaL j) ((w.lookup j).getD 0)
      else alphaOf alpha j := by
  induction nodes generalizing alpha with
  | nil => rfl
  | cons i nodes ih =>
    obtain ⟨hi, hrest⟩ := List.nodup_cons.1 hn
    rw [trustUpdate, List.foldl_cons, ← trustUpdate, ih hrest]
    by_cases hji : j = i
    · subst hji
      simp [hi, alphaOf]
    · simp [hji, alphaOf, AList.lookup_insert_ne hji]

theorem mem_trustUpdate (deltaL : String → K) (w : HashMap String K) (nodes : List String)
    (alpha : Alpha K) (j : String) :
    j ∈ trustUpdate deltaL w nodes alpha ↔ j ∈ nodes ∨ j ∈ alpha := by
  induction nodes generalizing alpha with
  | nil => simp [trustUpdate]
  | cons i nodes ih =>
    rw [trustUpdate, List.foldl_cons, ← trustUpdate, ih, AList.mem_insert, List.mem_cons]
    tauto

section Bounds
variable [LinearOrder K] [IsStrictOrderedRing K]

theorem improvement_bounds (myId : String) (r : Round K) (j : String) :
    |improvement myId r j| ≤ 1 := by
  have hzero : |(0 : K)| ≤ 1 := by simp
  have hown : |if r.hasDelta then (1 : K) else 0| ≤ 1 := by split <;> simp
  rw [improvement, peerImprovement?]
  by_cases hme : j = myId
  · simpa [hme] using hown
  · by_cases hj : j ∈ r.neighbors
    · rw [if_neg hme, if_pos hj]
      cases r.peers j with
      | missing => exact hzero
      | otherShape => exact hzero
      | similar sim =>
        cases r.hasDelta with
        | false => exact hzero
        | true => exact abs_le.2 sim.2
    · rw [if_neg hme, if_neg hj]
      exact hzero

theorem weights_bounds {exp : K → K} (hexp : ∀ x, 0 < exp x) {nodes : List String}
    (alpha : Alpha K) {j : String} (hj : j ∈ nodes) :
    0 ≤ ((weights exp nodes alpha).lookup j).getD 0 ∧
      ((weights exp nodes alpha).lookup j).getD 0 ≤ 1 := by
  rw [lookup_weights exp nodes alpha hj]
  exact weight_bounds hexp (List.mem_map_of_mem hj)

theorem updated_bound {alpha deltaL w b : K} (ha : |alpha| ≤ b) (hb : 1225 / 1000 ≤ b)
    (hd : |deltaL| ≤ 1) (hw : 0 ≤ w ∧ w ≤ 1) : |updated alpha deltaL w| ≤ b := by
  have hquarter : w * (1 - w) ≤ 1 / 4 := by nlinarith [sq_nonneg (w - 1 / 2)]
  have hpos : 0 ≤ w * (1 - w) := mul_nonneg hw.1 (sub_nonneg.2 hw.2)
  have hstep : |beta * deltaL * w * (1 - w)| ≤ 1 / 40 := by
    have hassoc : beta * deltaL * w * (1 - w) = beta * (deltaL * (w * (1 - w))) := by ring
    rw [hassoc, abs_mul, abs_mul, abs_of_nonneg hpos, beta, abs_of_pos (by norm_num)]
    have hprod : |deltaL| * (w * (1 - w)) ≤ 1 * (1 / 4) :=
      mul_le_mul hd hquarter hpos zero_le_one
    linarith
  have hsum := abs_add_le alpha (beta * deltaL * w * (1 - w))
  rw [updated, abs_mul, abs_of_pos (show (0 : K) < 98 / 100 by norm_num)]
  linarith

theorem trustUpdate_bound {deltaL : String → K} {w : HashMap String K} {b : String → K}
    (hb : ∀ j, 1225 / 1000 ≤ b j) (nodes : List String) (alpha : Alpha K)
    (hd : ∀ j ∈ nodes, |deltaL j| ≤ 1)
    (hw : ∀ j ∈ nodes, 0 ≤ (w.lookup j).getD 0 ∧ (w.lookup j).getD 0 ≤ 1)
    (ha : ∀ j, |alphaOf alpha j| ≤ b j) (j : String) :
    |alphaOf (trustUpdate deltaL w nodes alpha) j| ≤ b j := by
  induction nodes generalizing alpha with
  | nil => exact ha j
  | cons i nodes ih =>
    rw [trustUpdate, List.foldl_cons, ← trustUpdate]
    apply ih _ (fun k hk => hd k (List.mem_cons_of_mem i hk))
      (fun k hk => hw k (List.mem_cons_of_mem i hk))
    intro k
    by_cases hki : k = i
    · subst hki
      rw [alphaOf, AList.lookup_insert]
      exact updated_bound (ha k) (hb k) (hd k (by simp)) (hw k (by simp))
    · rw [alphaOf, AList.lookup_insert_ne hki]
      exact ha k

theorem round_bound {exp : K → K} (hexp : ∀ x, 0 < exp x) (myId : String) (r : Round K)
    {b : String → K} (hb : ∀ j, 1225 / 1000 ≤ b j) (alpha : Alpha K)
    (ha : ∀ j, |alphaOf alpha j| ≤ b j)
    (hr : ∀ j ∈ allNodes myId r, j ∉ alpha → |r.draw j| ≤ b j) (j : String) :
    |alphaOf (round exp myId alpha r) j| ≤ b j := by
  apply trustUpdate_bound hb _ _ (fun k _ => improvement_bounds myId r k)
    (fun k hk => weights_bounds hexp _ hk)
  intro k
  rw [alphaOf, lookup_initialise]
  cases hk : alpha.lookup k with
  | some a => simpa [alphaOf, hk] using ha k
  | none =>
    by_cases hmem : k ∈ allNodes myId r
    · simpa [hmem] using hr k hmem (AList.lookup_eq_none.1 hk)
    · simpa [hmem, alphaOf, hk] using ha k

omit [IsStrictOrderedRing K] in
theorem mem_round (exp : K → K) (myId : String) (alpha : Alpha K) (r : Round K) (j : String) :
    j ∈ round exp myId alpha r ↔ j ∈ allNodes myId r ∨ j ∈ alpha := by
  rw [round, mem_trustUpdate]
  have hinit : j ∈ initialise r.draw (allNodes myId r) alpha ↔
      j ∈ alpha ∨ j ∈ allNodes myId r := by
    rw [← AList.lookup_isSome, lookup_initialise, Option.isSome_or, Bool.or_eq_true,
      AList.lookup_isSome]
    split <;> simp_all
  rw [hinit]
  tauto

theorem rounds_bound {exp : K → K} (hexp : ∀ x, 0 < exp x) (myId : String) (rs : List (Round K))
    (alpha : Alpha K) (j : String) :
    |alphaOf (rounds exp myId alpha rs) j| ≤
      max |(initialValue? myId alpha rs j).getD 0| (1225 / 1000) := by
  induction rs generalizing alpha with
  | nil => simp [rounds, initialValue?, alphaOf]
  | cons r rs ih =>
    have hround : |alphaOf (round exp myId alpha r) j| ≤
        max |(initialValue? myId alpha (r :: rs) j).getD 0| (1225 / 1000) := by
      apply round_bound hexp myId r
        (b := fun k => max |(initialValue? myId alpha (r :: rs) k).getD 0| (1225 / 1000))
      · exact fun k => le_max_right _ _
      · intro k
        cases hk : alpha.lookup k with
        | some a => simp [initialValue?, alphaOf, hk]
        | none => simp [alphaOf, hk]
      · intro k hmem hk
        simp [initialValue?, AList.lookup_eq_none.2 hk, hmem]
    rw [rounds, List.foldl_cons, ← rounds]
    refine (ih _).trans (max_le ?_ (le_max_right _ _))
    cases hj : (round exp myId alpha r).lookup j with
    | some a => simpa [initialValue?, alphaOf, hj] using hround
    | none =>
      have hnot : j ∉ round exp myId alpha r := AList.lookup_eq_none.1 hj
      rw [mem_round, not_or] at hnot
      simp [initialValue?, hj, AList.lookup_eq_none.2 hnot.2, hnot.1]

omit [IsStrictOrderedRing K] in
theorem initialValue_isSome {exp : K → K} {myId : String} {rs : List (Round K)} {alpha : Alpha K}
    {j : String} (h : j ∈ rounds exp myId alpha rs) : (initialValue? myId alpha rs j).isSome := by
  induction rs generalizing alpha with
  | nil => simpa [rounds, initialValue?, AList.lookup_isSome] using h
  | cons r rs ih =>
    have hrest : (initialValue? myId (round exp myId alpha r) rs j).isSome := ih h
    rw [initialValue?, Option.isSome_or, Bool.or_eq_true, AList.lookup_isSome, mem_round] at hrest
    rw [initialValue?, Option.isSome_or, Bool.or_eq_true, AList.lookup_isSome, List.find?_cons]
    by_cases hmem : j ∈ allNodes myId r
    · simp [hmem]
    · simp only [hmem, false_or, decide_false] at hrest ⊢
      exact hrest

end Bounds

/-- Every trust parameter a node stores stays within the larger of the value it was initialised with
and 1.225. -/
theorem alpha_bounded (myId : String) (rs : List (Round ℝ)) (j : String) (a : ℝ)
    (h : (rounds Real.exp myId ∅ rs).lookup j = some a) :
    ∃ v, initialValue? myId ∅ rs j = some v ∧ |a| ≤ max |v| 1.225 := by
  have hmem : j ∈ rounds Real.exp myId ∅ rs := AList.lookup_isSome.1 (by rw [h]; rfl)
  obtain ⟨v, hv⟩ := Option.isSome_iff_exists.1 (initialValue_isSome hmem)
  have hbound := rounds_bound Real.exp_pos myId rs ∅ j
  rw [hv, alphaOf, h] at hbound
  refine ⟨v, hv, ?_⟩
  norm_num at hbound ⊢
  exact hbound

def sampleRound : Round ℝ where
  neighbors := ["peer", "rival"]
  draw j := if j = "peer" then 1 else 0
  hasDelta := true
  peers j := if j = "peer" then .similar ⟨1, by norm_num⟩ else .otherShape

theorem alpha_bounded_sample :
    ∃ v, initialValue? "node" ∅ [sampleRound, sampleRound] "peer" = some v ∧
      |alphaOf (rounds Real.exp "node" ∅ [sampleRound, sampleRound]) "peer"| ≤ max |v| 1.225 := by
  have hnode : "peer" ∈ allNodes "node" sampleRound := by simp [allNodes, sampleRound]
  have hmem : "peer" ∈ rounds Real.exp "node" ∅ [sampleRound, sampleRound] :=
    (mem_round _ _ _ _ _).2 (Or.inl hnode)
  obtain ⟨a, ha⟩ := Option.isSome_iff_exists.1 (AList.lookup_isSome.2 hmem)
  rw [alphaOf, ha]
  exact alpha_bounded "node" [sampleRound, sampleRound] "peer" a ha

/-! Order. The step is not monotone in the weight, but two steps differ by less than the parameters
do. -/

theorem updated_mono {x y sa sb wa wb : ℝ} (hs : sb ≤ sa) (hsb : |sb| ≤ 1) (hwb : 0 ≤ wb)
    (hw : wb ≤ wa) (hone : wa + wb ≤ 1) (hdiff : wa - wb ≤ x - y) :
    updated y sb wb ≤ updated x sa wa := by
  have hwa : 0 ≤ wa * (1 - wa) := mul_nonneg (hwb.trans hw) (by linarith)
  have hsim : sb * (wa * (1 - wa)) ≤ sa * (wa * (1 - wa)) := mul_le_mul_of_nonneg_right hs hwa
  have hgap : 0 ≤ (wa - wb) * (1 - wa - wb) := mul_nonneg (by linarith) (by linarith)
  have hgap' : (wa - wb) * (1 - wa - wb) ≤ wa - wb :=
    mul_le_of_le_one_right (by linarith) (by linarith)
  have hturn : -((wa - wb) * (1 - wa - wb)) ≤ sb * ((wa - wb) * (1 - wa - wb)) := by
    nlinarith [(abs_le.1 hsb).1]
  have hsteps : sb * (wb * (1 - wb)) ≤ sa * (wa * (1 - wa)) + (x - y) := by
    nlinarith
  have hx : updated x sa wa = (x + sa * (wa * (1 - wa)) / 10) * (98 / 100) := by
    rw [updated, beta]
    ring
  have hy : updated y sb wb = (y + sb * (wb * (1 - wb)) / 10) * (98 / 100) := by
    rw [updated, beta]
    ring
  rw [hx, hy]
  linarith

theorem weight_mono (nodes : List String) (alpha : Alpha ℝ) {a b : String}
    (hab : alphaOf alpha b ≤ alphaOf alpha a) :
    Real.exp (alphaOf alpha b) / denominator Real.exp (nodes.map (alphaOf alpha)) ≤
      Real.exp (alphaOf alpha a) / denominator Real.exp (nodes.map (alphaOf alpha)) := by
  have hpos : 0 ≤ denominator Real.exp (nodes.map (alphaOf alpha)) := by
    apply List.sum_nonneg
    intro y hy
    obtain ⟨x, _, rfl⟩ := List.mem_map.1 hy
    exact (Real.exp_pos x).le
  exact div_le_div_of_nonneg_right (Real.exp_le_exp.2 hab) hpos

theorem trustUpdate_mono {deltaL : String → ℝ} {nodes : List String} (hn : nodes.Nodup)
    {alpha : Alpha ℝ} {a b : String} (ha : a ∈ nodes) (hb : b ∈ nodes)
    (hd : deltaL b ≤ deltaL a) (hdb : |deltaL b| ≤ 1) (hab : alphaOf alpha b ≤ alphaOf alpha a) :
    alphaOf (trustUpdate deltaL (weights Real.exp nodes alpha) nodes alpha) b ≤
      alphaOf (trustUpdate deltaL (weights Real.exp nodes alpha) nodes alpha) a := by
  by_cases heq : a = b
  · rw [heq]
  have hsum := exp_add_exp_le Real.exp_pos (alphaOf alpha) ha hb heq
  have hmem := List.mem_map_of_mem (f := alphaOf alpha) ha
  have hle := exp_le_denominator Real.exp_pos hmem
  have hpos := denominator_pos Real.exp_pos hmem
  rw [alphaOf_trustUpdate _ _ hn, alphaOf_trustUpdate _ _ hn, if_pos ha, if_pos hb,
    lookup_weights _ _ _ ha, lookup_weights _ _ _ hb]
  apply updated_mono hd hdb (div_nonneg (Real.exp_pos _).le hpos.le) (weight_mono nodes alpha hab)
  · rw [← add_div]
    exact (div_le_one hpos).2 hsum
  · exact weight_sub_le hle hab

theorem mem_allNodes (myId : String) (r : Round ℝ) (j : String) :
    j ∈ allNodes myId r ↔ j = myId ∨ j ∈ r.neighbors := by
  rw [allNodes, List.mem_mergeSort, List.mem_cons]

theorem alphaOf_initialise {myId : String} {r : Round ℝ} {j : String} (rs : List (Round ℝ))
    (alpha : Alpha ℝ) (hj : j ∈ allNodes myId r) :
    alphaOf (initialise r.draw (allNodes myId r) alpha) j =
      (initialValue? myId alpha (r :: rs) j).getD 0 := by
  rw [alphaOf, lookup_initialise, initialValue?, List.find?_cons]
  simp [hj]

/-- A node that starts with at least the trust of another, and is never found less similar, keeps at
least its trust, and so its weight among any nodes. -/
theorem trust_order (myId : String) {a b : String} (rs : List (Round ℝ)) (alpha : Alpha ℝ)
    (hset : ∀ r ∈ rs, (myId :: r.neighbors).Nodup)
    (hpart : ∀ r ∈ rs, a ∈ allNodes myId r ∧ b ∈ allNodes myId r)
    (hsim : ∀ r ∈ rs, improvement myId r b ≤ improvement myId r a)
    (hstart : (initialValue? myId alpha rs b).getD 0 ≤ (initialValue? myId alpha rs a).getD 0) :
    alphaOf (rounds Real.exp myId alpha rs) b ≤ alphaOf (rounds Real.exp myId alpha rs) a ∧
    ∀ nodes, a ∈ nodes → b ∈ nodes →
      ∃ wa wb, (weights Real.exp nodes (rounds Real.exp myId alpha rs)).lookup a = some wa ∧
        (weights Real.exp nodes (rounds Real.exp myId alpha rs)).lookup b = some wb ∧ wb ≤ wa := by
  have horder : alphaOf (rounds Real.exp myId alpha rs) b ≤
      alphaOf (rounds Real.exp myId alpha rs) a := by
    induction rs generalizing alpha with
    | nil => simpa [rounds, initialValue?, alphaOf] using hstart
    | cons r rs ih =>
      obtain ⟨ha, hb⟩ := hpart r (by simp)
      have hn : (allNodes myId r).Nodup :=
        (List.mergeSort_perm _ _).nodup_iff.2 (hset r (by simp))
      have hround : alphaOf (round Real.exp myId alpha r) b ≤
          alphaOf (round Real.exp myId alpha r) a := by
        apply trustUpdate_mono hn ha hb (hsim r (by simp)) (improvement_bounds myId r b)
        rw [alphaOf_initialise rs alpha ha, alphaOf_initialise rs alpha hb]
        exact hstart
      have hstored : ∀ j ∈ allNodes myId r, (initialValue? myId (round Real.exp myId alpha r)
          rs j).getD 0 = alphaOf (round Real.exp myId alpha r) j := by
        intro j hj
        have hmem : j ∈ round Real.exp myId alpha r := (mem_round _ _ _ _ _).2 (Or.inl hj)
        obtain ⟨x, hx⟩ := Option.isSome_iff_exists.1 (AList.lookup_isSome.2 hmem)
        simp [initialValue?, alphaOf, hx]
      apply ih _ (fun q hq => hset q (List.mem_cons_of_mem r hq))
        (fun q hq => hpart q (List.mem_cons_of_mem r hq))
        (fun q hq => hsim q (List.mem_cons_of_mem r hq))
      rw [hstored a ha, hstored b hb]
      exact hround
  refine ⟨horder, ?_⟩
  intro nodes ha hb
  exact ⟨_, _, lookup_weights _ _ _ ha, lookup_weights _ _ _ hb, weight_mono nodes _ horder⟩

theorem trust_order_sample :
    alphaOf (rounds Real.exp "node" ∅ [sampleRound, sampleRound]) "rival" ≤
      alphaOf (rounds Real.exp "node" ∅ [sampleRound, sampleRound]) "peer" := by
  have hnodes : ∀ j, j = "peer" ∨ j = "rival" → j ∈ allNodes "node" sampleRound := by
    intro j hj
    rw [mem_allNodes]
    rcases hj with rfl | rfl <;> simp [sampleRound]
  refine (trust_order "node" (a := "peer") (b := "rival") [sampleRound, sampleRound] ∅
    ?_ ?_ ?_ ?_).1
  · simp [sampleRound]
  · simpa using ⟨hnodes "peer" (Or.inl rfl), hnodes "rival" (Or.inr rfl)⟩
  · simp [improvement, peerImprovement?, sampleRound]
  · simp [initialValue?, hnodes]
    simp [sampleRound]

end Slakshna.Trust

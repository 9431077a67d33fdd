import Slakshna.Engine.Trust
import Slakshna.Net.Agreement
import Slakshna.Net.Provenance
import Slakshna.Node.Standing

/-! From the similarity of deltas to the election. A node that no engine finds less similar than another
is not ranked below it, but for what the other gives itself. -/
namespace Slakshna.Trust

/-- What keeps one node from being put before another in a round: it takes part only where the other
does, is not found more similar, and is not drawn above it when it is met first. -/
structure PutsFirst (myId a b : String) (alpha : Alpha ℝ) (r : Round ℝ) : Prop where
  nodup : (myId :: r.neighbors).Nodup
  together : b ∈ allNodes myId r → a ∈ allNodes myId r
  absent : b ∉ allNodes myId r → b ∈ alpha → a ∉ allNodes myId r
  similar : improvement myId r b ≤ improvement myId r a
  drawn : b ∈ allNodes myId r → b ∉ alpha →
    r.draw b ≤ alphaOf (initialise r.draw (allNodes myId r) alpha) a

section Weights
variable {myId a b : String} {alpha : Alpha ℝ} {r : Round ℝ}

theorem alphaOf_initialise_of_mem (draw : String → ℝ) (nodes : List String) {j : String}
    (hj : j ∈ alpha) : alphaOf (initialise draw nodes alpha) j = alphaOf alpha j := by
  obtain ⟨x, hx⟩ := Option.isSome_iff_exists.1 (AList.lookup_isSome.2 hj)
  rw [alphaOf, alphaOf, lookup_initialise, hx]
  rfl

theorem PutsFirst.initial (h : PutsFirst myId a b alpha r) (hb : b ∈ allNodes myId r)
    (horder : b ∈ alpha → a ∈ alpha ∧ alphaOf alpha b ≤ alphaOf alpha a) :
    alphaOf (initialise r.draw (allNodes myId r) alpha) b ≤
      alphaOf (initialise r.draw (allNodes myId r) alpha) a := by
  by_cases hmem : b ∈ alpha
  · obtain ⟨ha, hle⟩ := horder hmem
    rwa [alphaOf_initialise_of_mem _ _ hmem, alphaOf_initialise_of_mem _ _ ha]
  · have hnone : alpha.lookup b = none := AList.lookup_eq_none.2 hmem
    have hvalue : alphaOf (initialise r.draw (allNodes myId r) alpha) b = r.draw b := by
      rw [alphaOf, lookup_initialise, hnone, if_pos hb]
      rfl
    rw [hvalue]
    exact h.drawn hb hmem

theorem alphaOf_round_of_not_mem {j : String} (hn : (myId :: r.neighbors).Nodup)
    (hj : j ∉ allNodes myId r) : alphaOf (round Real.exp myId alpha r) j = alphaOf alpha j := by
  have hnodes : (allNodes myId r).Nodup := (List.mergeSort_perm _ _).nodup_iff.2 hn
  rw [Trust.round, alphaOf_trustUpdate _ _ hnodes, if_neg hj, alphaOf, alphaOf, lookup_initialise,
    if_neg hj, Option.or_none]

theorem PutsFirst.round (h : PutsFirst myId a b alpha r)
    (horder : b ∈ alpha → a ∈ alpha ∧ alphaOf alpha b ≤ alphaOf alpha a)
    (hb : b ∈ Trust.round Real.exp myId alpha r) :
    a ∈ Trust.round Real.exp myId alpha r ∧
      alphaOf (Trust.round Real.exp myId alpha r) b ≤
        alphaOf (Trust.round Real.exp myId alpha r) a := by
  rw [mem_round] at hb ⊢
  by_cases hnow : b ∈ allNodes myId r
  · have ha := h.together hnow
    have hn : (allNodes myId r).Nodup := (List.mergeSort_perm _ _).nodup_iff.2 h.nodup
    exact ⟨Or.inl ha, trustUpdate_mono hn ha hnow h.similar (improvement_bounds myId r b)
      (h.initial hnow horder)⟩
  · have hbefore : b ∈ alpha := hb.resolve_left hnow
    obtain ⟨ha, hle⟩ := horder hbefore
    refine ⟨Or.inr ha, ?_⟩
    rwa [alphaOf_round_of_not_mem h.nodup hnow,
      alphaOf_round_of_not_mem h.nodup (h.absent hnow hbefore)]

end Weights
end Slakshna.Trust

namespace Slakshna.Cluster
open LatticeBlock Chains Committee Contribution

/-! What a judge makes of two nodes -/

structure Puts (own : Prop) (a b : String) (score : String → ℚ) : Prop where
  first : 0 ≤ score a
  second : 0 ≤ score b
  order : ¬own → score b ≤ score a

structure Favours (own : Prop) (a b : String) (bs : List (LatticeBlock FiniteF64)) : Prop where
  puts : Puts own a b (trustSum bs)
  both : b ∈ evaluatedNodes bs → a ∈ evaluatedNodes bs

section Judges
variable {own : Prop} {a b : String}

theorem Favours.append {xs ys : List (LatticeBlock FiniteF64)} (hx : Favours own a b xs)
    (hy : Favours own a b ys) : Favours own a b (xs ++ ys) := by
  refine ⟨⟨?_, ?_, fun hown => ?_⟩, ?_⟩
  · rw [trustSum_append]
    exact add_nonneg hx.puts.first hy.puts.first
  · rw [trustSum_append]
    exact add_nonneg hx.puts.second hy.puts.second
  · rw [trustSum_append, trustSum_append]
    exact add_le_add (hx.puts.order hown) (hy.puts.order hown)
  · have happend : ∀ id, id ∈ evaluatedNodes (xs ++ ys) ↔
        id ∈ evaluatedNodes xs ∨ id ∈ evaluatedNodes ys := by
      intro id
      simp only [evaluatedNodes, List.filterMap_append, List.toFinset_append, Finset.mem_union]
    rw [happend, happend]
    exact Or.imp hx.both hy.both

variable [Sha256]

/-- What an engine gives a node; nothing if it has no weight for it. -/
def given (weights : HashMap String FiniteF64) (id : String) : ℚ :=
  ((weights.lookup id).map ExactValue.toRat).getD 0

end Judges

section Cluster
variable {N T : Type} {c : F64Codec T} [DecidableEq N] [Sha256] {cfg : N → Epoch.Config}
  {a b : String} {s : State N (jsonCodec c)}

omit [Sha256] in
theorem Favours.perm {own : Prop} {xs ys : List (LatticeBlock FiniteF64)} (h : Favours own a b xs)
    (hperm : xs.Perm ys) : Favours own a b ys := by
  have hsum := fun id => trustSum_perm hperm id
  refine ⟨⟨hsum a ▸ h.puts.first, hsum b ▸ h.puts.second, fun hown => ?_⟩, ?_⟩
  · rw [← hsum a, ← hsum b]
    exact h.puts.order hown
  · rw [← evaluatedNodes_perm hperm]
    exact h.both

end Cluster

end Slakshna.Cluster

import Mathlib.Algebra.BigOperators.Fin
import Mathlib.Algebra.BigOperators.Group.List.Lemmas
import Mathlib.Algebra.FreeMonoid.Basic
import Mathlib.Data.Fin.VecNotation
import Slakshna.Chain.LatticeBlock
import Slakshna.Engine.Delta

/-! The model hash of a sum of deltas, which goes into a proposal as its payload hash. What is hashed
is each key with the sum of its tensor, in the order of insertion. -/
namespace Slakshna.Engine
open Checkpoint Bytes
open scoped List
variable {K : Type} [Field K]

def Tensor.sum (v : Tensor K) : K := ∑ i, v.entries i

def hashPiece (text : K → List Char) (e : Sigma (fun _ : Name => Tensor K)) : List Char :=
  e.1 ++ text e.2.sum

def modelHashInput (text : K → List Char) (deltaAgg : StateDict (Tensor K)) : List Char :=
  deltaAgg.entries.flatMap (hashPiece text)

def modelHash [Sha256] (text : K → List Char) (deltaAgg : StateDict (Tensor K)) : String :=
  hexEncode (Sha256.digest (ofText (String.ofList (modelHashInput text deltaAgg))))

def SameMap (d d' : StateDict (Tensor K)) : Prop := ∀ k, d.lookup k = d'.lookup k

def Binds [Sha256] (text : K → List Char) (d : StateDict (Tensor K)) : Prop :=
  ∀ d', modelHash text d' = modelHash text d → SameMap d' d

def OrderFree [Sha256] (text : K → List Char) (d : StateDict (Tensor K)) : Prop :=
  ∀ d', SameMap d' d → modelHash text d' = modelHash text d

def Tensor.addAxis (v : Tensor K) : Tensor K :=
  ⟨v.shape ++ [1], fun i => v.entries (i.cast (by simp))⟩

omit [Field K] in
theorem addAxis_ne (v : Tensor K) : v.addAxis ≠ v := by
  intro h
  have hlength := congrArg (fun t : Tensor K => t.shape.length) h
  simp [Tensor.addAxis] at hlength

theorem sum_addAxis (v : Tensor K) : v.addAxis.sum = v.sum :=
  Fintype.sum_equiv (finCongr (by simp [Tensor.addAxis])) _ _ (fun _ => rfl)

omit [Field K] in
theorem sameMap_iff_perm {d d' : StateDict (Tensor K)} : SameMap d d' ↔ d.entries ~ d'.entries := by
  constructor
  · intro h
    apply List.lookup_ext d.nodupKeys d'.nodupKeys
    intro k v
    have hk : d.entries.dlookup k = d'.entries.dlookup k := h k
    rw [hk]
  · intro hperm k
    exact AList.perm_lookup hperm

section Binding
variable [Sha256] {text : K → List Char} {d d' : StateDict (Tensor K)}

theorem modelHash_eq_iff (hsha : Function.Injective Sha256.digest) :
    modelHash text d = modelHash text d' ↔ modelHashInput text d = modelHashInput text d' := by
  rw [modelHash, modelHash, hexEncode_injective.eq_iff, hsha.eq_iff, ofText_injective.eq_iff]
  exact ⟨fun h => String.ofList_injective h, congrArg String.ofList⟩

theorem not_binds (h : d.entries ≠ []) : ¬Binds text d := by
  intro hbinds
  cases hentries : d.entries with
  | nil => exact h hentries
  | cons e rest =>
    obtain ⟨k, v⟩ := e
    have hkeys := d.nodupKeys
    rw [hentries] at hkeys
    let other : StateDict (Tensor K) := ⟨⟨k, v.addAxis⟩ :: rest, hkeys⟩
    have hhash : modelHash text other = modelHash text d := by
      have hinput : modelHashInput text other = modelHashInput text d := by
        simp [modelHashInput, other, hentries, hashPiece, sum_addAxis]
      rw [modelHash, modelHash, hinput]
    have hlookup : d.entries.dlookup k = some v := by rw [hentries, List.dlookup_cons_eq]
    have hsame : some v.addAxis = d.entries.dlookup k := (List.dlookup_cons_eq rest k _).symm.trans
      (hbinds other hhash k)
    exact addAxis_ne v (Option.some.inj (hsame.trans hlookup))

theorem binds_empty (hsha : Function.Injective Sha256.digest) (htext : ∀ x, text x ≠ [])
    (h : d.entries = []) : Binds text d := by
  intro d' hhash
  have hinput := (modelHash_eq_iff hsha).1 hhash
  rw [modelHashInput, modelHashInput, h, List.flatMap_nil, List.flatMap_eq_nil_iff] at hinput
  have hempty : d'.entries = [] := by
    apply List.eq_nil_iff_forall_not_mem.2
    intro e he
    exact htext _ (List.append_eq_nil_iff.1 (hinput e he)).2
  rw [sameMap_iff_perm, hempty, h]

omit [Sha256] in
theorem flatMap_perm {l l' : List (Sigma (fun _ : Name => Tensor K))} (hperm : l ~ l')
    (h : ∀ e ∈ l, ∀ e' ∈ l, hashPiece text e ++ hashPiece text e' =
      hashPiece text e' ++ hashPiece text e) :
    l.flatMap (hashPiece text) = l'.flatMap (hashPiece text) := by
  have hprod : ∀ l : List (Sigma (fun _ : Name => Tensor K)), l.flatMap (hashPiece text) =
      FreeMonoid.toList ((l.map (fun e => FreeMonoid.ofList (hashPiece text e))).prod) := by
    intro l
    rw [FreeMonoid.toList_prod, List.map_map]
    rfl
  rw [hprod, hprod]
  apply congrArg FreeMonoid.toList
  apply (hperm.map _).prod_eq'
  rw [List.pairwise_map]
  exact List.pairwise_of_forall_mem_list h

theorem orderFree_iff (hsha : Function.Injective Sha256.digest) : OrderFree text d ↔
    ∀ e ∈ d.entries, ∀ e' ∈ d.entries, hashPiece text e ++ hashPiece text e' =
      hashPiece text e' ++ hashPiece text e := by
  constructor
  · intro h e he e' he'
    by_cases heq : e = e'
    · rw [heq]
    · obtain ⟨rest, hrest⟩ : ∃ rest, d.entries ~ e :: e' :: rest := by
        classical
        have hin : e' ∈ d.entries.erase e := (List.mem_erase_of_ne (Ne.symm heq)).2 he'
        exact ⟨_, (List.perm_cons_erase he).trans ((List.perm_cons_erase hin).cons e)⟩
      have hhash : ∀ l, l ~ d.entries → l.flatMap (hashPiece text) =
          d.entries.flatMap (hashPiece text) := by
        intro l hl
        exact (modelHash_eq_iff hsha).1
          (h ⟨l, (List.perm_nodupKeys hl).2 d.nodupKeys⟩ (sameMap_iff_perm.2 hl))
      have hswap := (hhash _ hrest.symm).trans
        (hhash _ ((List.Perm.swap e e' rest).trans hrest.symm)).symm
      simpa [← List.append_assoc] using hswap
  · intro h d' hsame
    have hperm := sameMap_iff_perm.1 hsame
    rw [modelHash_eq_iff hsha]
    exact (flatMap_perm hperm.symm h).symm

/-- The hash commits to no map but the empty one. -/
theorem modelHash_binds_iff (hsha : Function.Injective Sha256.digest)
    (htext : ∀ x : K, text x ≠ []) (d : StateDict (Tensor K)) :
    (Binds text d ∧ OrderFree text d ↔ d.entries = []) ∧
      (OrderFree text d ↔ ∀ e ∈ d.entries, ∀ e' ∈ d.entries,
        hashPiece text e ++ hashPiece text e' = hashPiece text e' ++ hashPiece text e) := by
  refine ⟨?_, orderFree_iff hsha⟩
  constructor
  · rintro ⟨hbinds, -⟩
    by_contra hne
    exact not_binds hne hbinds
  · intro hempty
    refine ⟨binds_empty hsha htext hempty, (orderFree_iff hsha).2 ?_⟩
    intro e he
    rw [hempty] at he
    cases he

end Binding

/-! Tensors with whole sums, whose text ends in `.0`, and the digest that SHA-256 has of one. -/

def wholeText (x : ℚ) : List Char := Nat.toDigits 10 x.num.natAbs ++ ['.', '0']

theorem wholeText_ne_nil (x : ℚ) : wholeText x ≠ [] := by
  simp [wholeText]

def pair (k : Name) (x y : ℚ) : StateDict (Tensor ℚ) := AList.singleton k ⟨[2], ![x, y]⟩

@[reducible] def pairDigest : Sha256 := Sha256.ofTable [
  (ofText "a3.0", [236, 75, 229, 59, 81, 109, 149, 187, 197, 18, 209, 201, 106, 42, 221, 129, 240, 78,
    25, 122, 102, 79, 186, 228, 63, 21, 43, 100, 245, 9, 7, 158])]

theorem modelHash_binds_sample :
    letI := pairDigest
    (Binds wholeText (pair ['a'] 1 2) ∧ OrderFree wholeText (pair ['a'] 1 2) ↔
      (pair ['a'] 1 2).entries = []) ∧
      (OrderFree wholeText (pair ['a'] 1 2) ↔
        ∀ e ∈ (pair ['a'] 1 2).entries, ∀ e' ∈ (pair ['a'] 1 2).entries,
          hashPiece wholeText e ++ hashPiece wholeText e' =
            hashPiece wholeText e' ++ hashPiece wholeText e) :=
  letI := pairDigest
  modelHash_binds_iff (Sha256.ofTable_injective (by simp) (by simp)) wholeText_ne_nil _

/-- Two entries change places, and the hash stays. -/
theorem modelHash_swapped : ¬∃ _ : Sha256, ∀ d d' : StateDict (Tensor ℚ),
    modelHash wholeText d = modelHash wholeText d' → SameMap d d' := by
  rintro ⟨_, h⟩
  have hinput : modelHashInput wholeText (pair ['w'] 1 0) =
      modelHashInput wholeText (pair ['w'] 0 1) := by decide +kernel
  have hsame := h (pair ['w'] 1 0) (pair ['w'] 0 1) (by rw [modelHash, modelHash, hinput]) ['w']
  have hfirst := congrArg (fun v : Option (Tensor ℚ) => v.map (fun v => v.entry 0)) hsame
  exact absurd hfirst (by decide +kernel)

end Slakshna.Engine

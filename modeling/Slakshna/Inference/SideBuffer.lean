import Mathlib.Algebra.BigOperators.Group.List.Basic
import Slakshna.Lib.RowMajor
import Slakshna.Lib.Run
import Slakshna.Inference.LayerStore

/-! The side buffer in which the patched vLLM attention keeps one layer's compressed keys and
values. -/
namespace Slakshna.VLLM
open KVCache KVCache.LayerKVStore Fallible RowMajor
variable {W E : Type} {B H : ℕ}

/-- The vectors of a tensor in the order of `reshape(-1, D)`. -/
def vectors {X : Type} (xs : List (Slab B H X)) : List X :=
  flatten (fun b h (t : Fin xs.length) => xs.get t b h)

def encode (q : Quantizer W E) (p : W × W) : E × E := (q.encodeKey p.1, q.encodeValue p.2)

def decode (q : Quantizer W E) (e : E × E) : W × W := (q.decodeKey e.1, q.decodeValue e.2)

def compress (q : Quantizer W E) (kv : List (Slab B H (W × W))) : List (E × E) :=
  (vectors kv).map (encode q)

/-- `reshape(B, H, T, D)` raises where the number of rows is another one. -/
def decompress (q : Quantizer W E) (rows : List (E × E)) (B H T : ℕ) :
    Except KVError (Chunk (W × W)) :=
  if hl : rows.length = B * H * T then
    .ok ⟨B, H, List.ofFn (fun t b h => decode q (unflatten rows hl b h t))⟩
  else .error .shape

/-! _TQSideBuffer: codes and norms of keys and values are appended and concatenated alike, and are
kept together. -/

structure TQSideBuffer (E : Type) where
  rows : List (List (E × E))
  cat : Option (List (E × E))
  cacheValid : Bool
  batch : ℕ
  heads : ℕ

namespace TQSideBuffer

def init : TQSideBuffer E := ⟨[], none, false, 1, 1⟩

def append (q : Quantizer W E) (s : TQSideBuffer E) (kv : List (Slab B H (W × W))) : TQSideBuffer E :=
  { s with rows := s.rows ++ [compress q kv], cacheValid := false, batch := B, heads := H }

def rebuildCache (s : TQSideBuffer E) : TQSideBuffer E :=
  if s.cacheValid || s.rows.isEmpty then s
  else { s with cat := some s.rows.flatten, cacheValid := true }

def getAll (q : Quantizer W E) (s : TQSideBuffer E) :
    TQSideBuffer E × Except KVError (Option (Chunk (W × W))) :=
  if s.rows.isEmpty then (s, .ok none)
  else
    let s := s.rebuildCache
    (s, (decompress q (s.cat.getD []) s.batch s.heads s.rows.length).map some)

end TQSideBuffer

inductive Call (B H : ℕ) (W : Type) where
  | append (kv : List (Slab B H (W × W)))
  | getAll

/-- A `get_all` that raises has rebuilt the cache all the same. -/
def step (q : Quantizer W E) (s : TQSideBuffer E) : Call B H W → TQSideBuffer E
  | .append kv => s.append q kv
  | .getAll => (s.getAll q).1

def appended : List (Call B H W) → List (List (Slab B H (W × W)))
  | [] => []
  | .append kv :: calls => kv :: appended calls
  | .getAll :: calls => appended calls

structure Holds (q : Quantizer W E) (kvs : List (List (Slab B H (W × W)))) (s : TQSideBuffer E) :
    Prop where
  rows : s.rows = kvs.map (compress q)
  cat : s.cacheValid = true → s.cat = some s.rows.flatten
  shape : kvs ≠ [] → s.batch = B ∧ s.heads = H

section Holds
variable {q : Quantizer W E} {kvs : List (List (Slab B H (W × W)))} {s : TQSideBuffer E}

theorem holds_init (q : Quantizer W E) :
    Holds q ([] : List (List (Slab B H (W × W)))) TQSideBuffer.init where
  rows := rfl
  cat := fun hvalid => by cases hvalid
  shape := fun hne => absurd rfl hne

theorem Holds.rebuildCache (h : Holds q kvs s) : Holds q kvs s.rebuildCache := by
  rw [TQSideBuffer.rebuildCache]
  split
  · exact h
  · exact ⟨h.rows, fun _ => rfl, h.shape⟩

theorem Holds.append (h : Holds q kvs s) (kv : List (Slab B H (W × W))) :
    Holds q (kvs ++ [kv]) (s.append q kv) where
  rows := by rw [TQSideBuffer.append, h.rows, List.map_append, List.map_singleton]
  cat := fun hvalid => by cases hvalid
  shape := fun _ => ⟨rfl, rfl⟩

theorem Holds.getAll_fst (h : Holds q kvs s) : Holds q kvs (s.getAll q).1 := by
  rw [TQSideBuffer.getAll]
  split
  · exact h
  · exact h.rebuildCache

theorem Holds.run (h : Holds q kvs s) (calls : List (Call B H W)) :
    Holds q (kvs ++ appended calls) (Run.exec (step q) s calls) := by
  induction calls generalizing kvs s with
  | nil => simpa [appended] using h
  | cons call calls ih =>
    cases call with
    | append kv =>
      rw [appended, List.append_cons]
      exact ih (h.append kv)
    | getAll => exact ih h.getAll_fst

end Holds

section Vectors
variable {X Y : Type} {T : ℕ}

theorem vectors_eq {xs : List (Slab B H X)} (hT : xs.length = T) :
    vectors xs = flatten (fun b h (t : Fin T) => xs.get (t.cast hT.symm) b h) := by
  subst hT
  rfl

theorem length_vectors (xs : List (Slab B H X)) : (vectors xs).length = B * H * xs.length :=
  length_flatten _

theorem vectors_map (g : X → Y) (xs : List (Slab B H X)) :
    vectors (xs.map (Slab.map g)) = (vectors xs).map g := by
  rw [vectors_eq (List.length_map (Slab.map g)), vectors, map_flatten]
  simp [Slab.map]

theorem eq_of_vectors_eq {xs ys : List (Slab B H X)} (hlen : xs.length = ys.length)
    (h : vectors xs = vectors ys) : xs = ys := by
  rw [vectors_eq hlen, vectors] at h
  have hentries := flatten_injective h
  apply List.ext_get hlen
  intro i hx hy
  funext b j
  exact congrFun (congrFun (congrFun hentries b) j) ⟨i, hy⟩

theorem vectors_ofFn (f : Fin B → Fin H → Fin T → X) :
    vectors (List.ofFn (fun t b h => f b h t)) = flatten f := by
  rw [vectors_eq List.length_ofFn]
  simp

end Vectors

section GetAll
variable {q : Quantizer W E} {kvs : List (List (Slab B H (W × W)))} {s : TQSideBuffer E}

theorem decompress_eq_iff {rows : List (E × E)} {T : ℕ} {xs : List (Slab B H (W × W))} :
    decompress q rows B H T = .ok ⟨B, H, xs⟩ ↔
      xs.length = T ∧ rows.map (decode q) = vectors xs := by
  have hread : ∀ hl : rows.length = B * H * T,
      vectors (List.ofFn (fun t b h => decode q (unflatten rows hl b h t))) =
        rows.map (decode q) := by
    intro hl
    rw [vectors_ofFn, ← map_flatten, flatten_unflatten]
  rw [decompress]
  constructor
  · intro h
    split at h
    · next hl =>
      have hxs := eq_of_heq (Chunk.mk.inj (Except.ok.inj h)).2.2
      rw [← hxs]
      exact ⟨List.length_ofFn, (hread hl).symm⟩
    · cases h
  · intro h
    obtain ⟨hlen, hrows⟩ := h
    have hl : rows.length = B * H * T := by
      have hcount := congrArg List.length hrows
      rw [List.length_map, length_vectors, hlen] at hcount
      exact hcount
    have hxs := eq_of_vectors_eq (List.length_ofFn.trans hlen.symm) ((hread hl).trans hrows)
    rw [dif_pos hl, hxs]

theorem Holds.getAll_eq_iff (h : Holds q kvs s) (hne : kvs ≠ []) {xs : List (Slab B H (W × W))} :
    (s.getAll q).2 = .ok (some ⟨B, H, xs⟩) ↔
      xs.length = kvs.length ∧ (kvs.flatMap vectors).map q.roundTrip = vectors xs := by
  have hrebuilt := h.rebuildCache
  have hsome : s.rows.isEmpty = false := by
    rw [h.rows, List.isEmpty_eq_false_iff]
    exact fun hnil => hne (List.map_eq_nil_iff.1 hnil)
  have hvalid : s.rebuildCache.cacheValid = true := by
    rw [TQSideBuffer.rebuildCache, hsome, Bool.or_false]
    split
    · assumption
    · rfl
  have hcat : s.rebuildCache.cat.getD [] = (kvs.flatMap vectors).map (encode q) := by
    rw [hrebuilt.cat hvalid, hrebuilt.rows, List.map_flatMap]
    rfl
  obtain ⟨hbatch, hheads⟩ := hrebuilt.shape hne
  have hget : (s.getAll q).2 =
      (decompress q ((kvs.flatMap vectors).map (encode q)) B H kvs.length).map some := by
    rw [TQSideBuffer.getAll, hsome, if_neg Bool.false_ne_true]
    dsimp only
    rw [hcat, hbatch, hheads, hrebuilt.rows, List.length_map]
  have hdecoded : ((kvs.flatMap vectors).map (encode q)).map (decode q) =
      (kvs.flatMap vectors).map q.roundTrip := List.map_map
  rw [hget, ← hdecoded, ← decompress_eq_iff]
  cases decompress q ((kvs.flatMap vectors).map (encode q)) B H kvs.length <;> simp [Except.map]

theorem length_flatten_eq_iff {X : Type} {xss : List (List X)} (h : ∀ xs ∈ xss, xs ≠ []) :
    xss.flatten.length = xss.length ↔ ∀ xs ∈ xss, xs.length = 1 := by
  have hle : ∀ yss : List (List X), (∀ ys ∈ yss, ys ≠ []) → yss.length ≤ yss.flatten.length := by
    intro yss hyss
    induction yss with
    | nil => exact le_refl 0
    | cons ys yss ih =>
      obtain ⟨hys, hrest⟩ := List.forall_mem_cons.1 hyss
      have hpos := List.length_pos_iff.2 hys
      have htail := ih hrest
      rw [List.flatten_cons, List.length_append, List.length_cons]
      omega
  induction xss with
  | nil => simp
  | cons xs xss ih =>
    obtain ⟨hxs, hrest⟩ := List.forall_mem_cons.1 h
    have hpos := List.length_pos_iff.2 hxs
    have htail := hle xss hrest
    have htokens := propext (ih hrest)
    rw [List.flatten_cons, List.length_append, List.length_cons, List.forall_mem_cons, ← htokens]
    omega

end GetAll

section Order
variable {X : Type}

def InOrder (kvs : List (List (Slab B H X))) : Prop :=
  kvs.flatMap vectors = vectors kvs.flatten

theorem vectors_append (h : B * H ≤ 1) (xs ys : List (Slab B H X)) :
    vectors (xs ++ ys) = vectors xs ++ vectors ys := by
  rcases Nat.le_one_iff_eq_zero_or_eq_one.1 h with hzero | hone
  · have hnil : ∀ zs : List (Slab B H X), vectors zs = [] := by
      intro zs
      apply List.eq_nil_of_length_eq_zero
      rw [length_vectors, hzero, Nat.zero_mul]
    rw [hnil, hnil, hnil, List.nil_append]
  · obtain rfl : B = 1 := Nat.eq_one_of_mul_eq_one_right hone
    obtain rfl : H = 1 := Nat.eq_one_of_mul_eq_one_left hone
    have hrow : ∀ zs : List (Slab 1 1 X),
        vectors zs = zs.map (fun s => s (Fin.last 0) (Fin.last 0)) := by
      intro zs
      rw [vectors, flatten_row]
      conv_rhs => rw [← List.ofFn_get zs, List.map_ofFn]
      rfl
    rw [hrow, hrow, hrow, List.map_append]

theorem inOrder_of_le (h : B * H ≤ 1) (kvs : List (List (Slab B H X))) : InOrder kvs := by
  induction kvs with
  | nil =>
    rw [InOrder]
    exact (List.eq_nil_of_length_eq_zero (length_vectors [])).symm
  | cons kv kvs ih =>
    rw [InOrder, List.flatMap_cons, List.flatten_cons, vectors_append h, ih]

theorem inOrder_singleton (kv : List (Slab B H X)) : InOrder [kv] := by
  rw [InOrder, List.flatMap_singleton, List.flatten_singleton]

theorem not_inOrder (h : 1 < B * H) {x y : X} (hxy : x ≠ y) (n : ℕ) :
    ¬ InOrder ([fun (_ : Fin B) (_ : Fin H) => x] :: List.replicate (n + 1) [fun _ _ => y]) := by
  intro horder
  have hB : 0 < B := Nat.pos_of_ne_zero (fun hzero => by simp [hzero] at h)
  have hH : 0 < H := Nat.pos_of_ne_zero (fun hzero => by simp [hzero] at h)
  have hstep : (vectors [fun (_ : Fin B) (_ : Fin H) => x])[1]? = some x := by
    have hconst : vectors [fun (_ : Fin B) (_ : Fin H) => x] = List.replicate (B * H) x := by
      simp [vectors, flatten]
    rw [hconst, List.getElem?_replicate, if_pos h]
  have htensor : (vectors ((fun (_ : Fin B) (_ : Fin H) => x) ::
      List.replicate (n + 1) (fun _ _ => y)))[1]? = some y := by
    have hone : 1 < ((fun (_ : Fin B) (_ : Fin H) => x) ::
        List.replicate (n + 1) (fun _ _ => y)).length := by simp
    exact getElem?_flatten_first _ hB hH ⟨1, hone⟩
  have hflat : ([fun (_ : Fin B) (_ : Fin H) => x] ::
      List.replicate (n + 1) [fun _ _ => y]).flatten =
        (fun _ _ => x) :: List.replicate (n + 1) (fun _ _ => y) := by
    simp
  rw [InOrder, List.flatMap_cons, hflat] at horder
  rw [← horder, List.getElem?_append_left (List.getElem?_eq_some_iff.1 hstep).1, hstep] at htensor
  exact hxy (Option.some_injective X htensor)

end Order

def Returns (q : Quantizer W E) (calls : List (Call B H W)) : Prop :=
  ((Run.exec (step q) TQSideBuffer.init calls).getAll q).2 =
    .ok (some ⟨B, H, (appended calls).flatten.map (Slab.map q.roundTrip)⟩)

def decompressed (q : Quantizer W E) (kvs : List (List (Slab B H (W × W)))) :
    List (List (Slab B H (W × W))) :=
  kvs.map (List.map (Slab.map q.roundTrip))

section Returns
variable {q : Quantizer W E} {calls : List (Call B H W)}

theorem inOrder_decompressed {kvs : List (List (Slab B H (W × W)))} :
    InOrder (decompressed q kvs) ↔
      (kvs.flatMap vectors).map q.roundTrip = vectors (kvs.flatten.map (Slab.map q.roundTrip)) := by
  have hstep : ∀ kv : List (Slab B H (W × W)),
      vectors (kv.map (Slab.map q.roundTrip)) = (vectors kv).map q.roundTrip :=
    fun kv => vectors_map q.roundTrip kv
  rw [InOrder, decompressed, ← List.map_flatten, List.flatMap_map, List.map_flatMap]
  simp only [hstep]

theorem returns_iff (hsome : appended calls ≠ []) (htokens : ∀ kv ∈ appended calls, kv ≠ []) :
    Returns q calls ↔
      (∀ kv ∈ appended calls, kv.length = 1) ∧ InOrder (decompressed q (appended calls)) := by
  have h := (holds_init q).run calls
  rw [List.nil_append] at h
  rw [Returns, h.getAll_eq_iff hsome, inOrder_decompressed, List.length_map,
    length_flatten_eq_iff htokens]

theorem appended_map_append (kvs : List (List (Slab B H (W × W)))) :
    appended (kvs.map Call.append) = kvs := by
  induction kvs with
  | nil => rfl
  | cons kv kvs ih => rw [List.map_cons, appended, ih]

theorem returns_of_layout (hone : ∀ kv ∈ appended calls, kv.length = 1)
    (h : B * H ≤ 1 ∧ appended calls ≠ [] ∨ (appended calls).length = 1) : Returns q calls := by
  have hsome : appended calls ≠ [] := by
    rcases h with h | h
    · exact h.2
    · exact List.ne_nil_of_length_eq_add_one h
  have htokens : ∀ kv ∈ appended calls, kv ≠ [] :=
    fun kv hkv => List.ne_nil_of_length_eq_add_one (hone kv hkv)
  refine (returns_iff hsome htokens).2 ⟨hone, ?_⟩
  rcases h with h | h
  · exact inOrder_of_le h.1 _
  · obtain ⟨kv, hkv⟩ := List.length_eq_one_iff.1 h
    rw [hkv]
    exact inOrder_singleton _

theorem exists_not_returns (h : 1 < B * H) {p p' : W × W} (hpp : q.roundTrip p ≠ q.roundTrip p')
    (n : ℕ) : ∃ calls : List (Call B H W),
      (appended calls).map List.length = List.replicate (n + 2) 1 ∧ ¬ Returns q calls := by
  obtain ⟨calls, hcalls⟩ : ∃ calls : List (Call B H W),
      appended calls = [fun _ _ => p] :: List.replicate (n + 1) [fun _ _ => p'] :=
    ⟨_, appended_map_append _⟩
  refine ⟨calls, ?_, ?_⟩
  · rw [hcalls]
    simp [List.replicate_succ]
  · intro hreturns
    have horder := ((returns_iff (by simp [hcalls]) (by simp [hcalls])).1 hreturns).2
    rw [hcalls, decompressed, List.map_cons, List.map_replicate] at horder
    exact not_inOrder h hpp n horder

end Returns

/-- After any calls `get_all` returns the decompressed tokens exactly if every append brought one
token and these come in the same order append by append as in the tensor. Whatever the tokens are,
that is so with at most one vector a token or with a single append, and otherwise not. -/
theorem getAll_returns_iff (q : Quantizer W E) (calls : List (Call B H W))
    (hsome : appended calls ≠ []) (htokens : ∀ kv ∈ appended calls, kv ≠ []) :
    (Returns q calls ↔
      (∀ kv ∈ appended calls, kv.length = 1) ∧ InOrder (decompressed q (appended calls))) ∧
    ∀ p p' : W × W, q.roundTrip p ≠ q.roundTrip p' →
      ((∀ calls' : List (Call B H W),
          (appended calls').map List.length = (appended calls).map List.length →
            Returns q calls') ↔
        (∀ kv ∈ appended calls, kv.length = 1) ∧ (B * H ≤ 1 ∨ (appended calls).length = 1)) := by
  refine ⟨returns_iff hsome htokens, ?_⟩
  intro p p' hpp
  constructor
  · intro hall
    have hone := ((returns_iff hsome htokens).1 (hall calls rfl)).1
    refine ⟨hone, ?_⟩
    by_contra hnot
    obtain ⟨hrows, hseveral⟩ := not_or.1 hnot
    obtain ⟨n, hn⟩ : ∃ n, (appended calls).length = n + 2 := by
      have hpos := List.length_pos_iff.2 hsome
      exact ⟨(appended calls).length - 2, by omega⟩
    obtain ⟨calls', hlengths, hfails⟩ := exists_not_returns (Nat.lt_of_not_le hrows) hpp n
    apply hfails (hall calls' _)
    rw [hlengths, ← hn]
    exact (List.map_eq_replicate_iff.2 hone).symm
  · intro h calls' hsame
    obtain ⟨hone, hlayout⟩ := h
    have hcount : (appended calls').length = (appended calls).length := by
      simpa using congrArg List.length hsame
    have hone' : ∀ kv ∈ appended calls', kv.length = 1 := by
      intro kv hkv
      have hmem := List.mem_map_of_mem (f := List.length) hkv
      rw [hsame] at hmem
      obtain ⟨kv₀, hkv₀, hlen⟩ := List.mem_map.1 hmem
      exact hlen.symm.trans (hone kv₀ hkv₀)
    have hsome' : appended calls' ≠ [] := by
      rw [← List.length_pos_iff, hcount, List.length_pos_iff]
      exact hsome
    exact returns_of_layout hone' (hlayout.imp (fun hle => ⟨hle, hsome'⟩) hcount.trans)

def twoPrompts : List (Call 2 1 ℕ) :=
  [.append [fun b _ => (b, b)], .append [fun b _ => (b + 2, b + 2)]]

theorem twoPrompts_not_returned :
    appended twoPrompts ≠ [] ∧ (∀ kv ∈ appended twoPrompts, kv ≠ []) ∧
      ¬ Returns plainQuantizer twoPrompts := by
  refine ⟨by decide, by decide, ?_⟩
  intro hreturns
  have horder := ((returns_iff (by decide) (by decide)).1 hreturns).2
  rw [InOrder] at horder
  revert horder
  decide +kernel

theorem twoPrompts_returns_iff :
    Returns plainQuantizer twoPrompts ↔ (∀ kv ∈ appended twoPrompts, kv.length = 1) ∧
      InOrder (decompressed plainQuantizer (appended twoPrompts)) :=
  (getAll_returns_iff plainQuantizer twoPrompts (by decide) (by decide)).1

end Slakshna.VLLM

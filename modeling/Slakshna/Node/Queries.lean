import Slakshna.Lib.Columns
import Slakshna.Chain.Lattice

/-! What a node's HTTP API says of its chains. Each request meets the chains in an order of its own. -/
namespace Slakshna.Api
open Chains
variable {F : Type}

inductive Response (α : Type) where
  | json (body : α)
  | notFound (message : String)
  deriving DecidableEq

def getBlock (chains : LatticeChains F) (o : IterOrder (String × List (LatticeBlock F)))
    (height : ℕ) : Response (List (LatticeBlock F)) :=
  let matchingBlocks := (chains.iter o).filterMap (fun e => e.2[height]?)
  if matchingBlocks.isEmpty then
    .notFound ("No lattice blocks found at index/height " ++ toString height)
  else .json matchingBlocks

/-- The loop body of `get_latest_block`: the block found so far, and the length of its chain. -/
def latestStep (found : Option (LatticeBlock F) × ℕ) (e : String × List (LatticeBlock F)) :
    Option (LatticeBlock F) × ℕ :=
  if e.2.length ≥ found.2 then
    match e.2.getLast? with
    | some block => (some block, e.2.length)
    | none => found
  else found

def getLatestBlock (chains : LatticeChains F) (o : IterOrder (String × List (LatticeBlock F))) :
    Response (LatticeBlock F) :=
  match ((chains.iter o).foldl latestStep (none, 0)).1 with
  | some block => .json block
  | none => .notFound "No lattice blocks available yet"

def getBlocks (chains : LatticeChains F) (o : IterOrder (String × List (LatticeBlock F))) :
    List (LatticeBlock F) := (chains.iter o).flatMap Prod.snd

inductive Latest (entries : List (String × List (LatticeBlock F))) :
    Option (LatticeBlock F) × ℕ → Prop where
  | none (h : ∀ e ∈ entries, e.2 = []) : Latest entries (none, 0)
  | some (block : LatticeBlock F) (e : String × List (LatticeBlock F)) (he : e ∈ entries)
      (hlast : e.2.getLast? = some block) (hlongest : ∀ e' ∈ entries, e'.2.length ≤ e.2.length) :
      Latest entries (some block, e.2.length)

theorem latest_foldl (entries : List (String × List (LatticeBlock F))) :
    Latest entries (entries.foldl latestStep (none, 0)) := by
  induction entries using List.reverseRecOn with
  | nil => exact .none (by simp)
  | append_singleton entries e ih =>
    rw [List.foldl_append, List.foldl_cons, List.foldl_nil]
    generalize entries.foldl latestStep (none, 0) = found at ih
    cases hlast : e.2.getLast? with
    | none =>
      have hempty : e.2 = [] := List.getLast?_eq_none_iff.1 hlast
      have hsame : latestStep found e = found := by
        rw [latestStep, hlast]
        split <;> rfl
      rw [hsame]
      cases ih with
      | none h => exact .none (by simpa [or_imp, forall_and, hempty] using h)
      | some block e' he' hlast' hlongest =>
        refine .some block e' (List.mem_append_left _ he') hlast' ?_
        intro e'' he''
        cases List.mem_append.1 he'' with
        | inl hold => exact hlongest e'' hold
        | inr hnew =>
          rw [List.mem_singleton.1 hnew, hempty]
          exact Nat.zero_le _
    | some block =>
      have hmem : e ∈ entries ++ [e] := List.mem_append_right _ (List.mem_singleton.2 rfl)
      by_cases hlonger : e.2.length ≥ found.2
      · rw [latestStep, if_pos hlonger, hlast]
        refine .some block e hmem hlast ?_
        intro e' he'
        cases List.mem_append.1 he' with
        | inl hold =>
          cases ih with
          | none h =>
            rw [h e' hold]
            exact Nat.zero_le _
          | some block' e₀ _ _ hlongest => exact (hlongest e' hold).trans hlonger
        | inr hnew => rw [List.mem_singleton.1 hnew]
      · rw [latestStep, if_neg hlonger]
        cases ih with
        | none h => exact absurd (Nat.zero_le _) hlonger
        | some block' e' he' hlast' hlongest =>
          refine .some block' e' (List.mem_append_left _ he') hlast' ?_
          intro e'' he''
          cases List.mem_append.1 he'' with
          | inl hold => exact hlongest e'' hold
          | inr hnew =>
            rw [List.mem_singleton.1 hnew]
            exact (not_le.1 hlonger).le

def rows (chains : LatticeChains F) : List (List (LatticeBlock F)) :=
  chains.entries.map (fun e => e.2)

theorem iter_rows (chains : LatticeChains F) (o : IterOrder (String × List (LatticeBlock F))) :
    ((chains.iter o).map Prod.snd).Perm (rows chains) := by
  have hperm := (HashMap.iter_perm chains o).map Prod.snd
  rwa [List.map_map] at hperm

theorem getBlock_page (chains : LatticeChains F) (o : IterOrder (String × List (LatticeBlock F)))
    (height : ℕ) :
    (height < Columns.width (rows chains) → ∃ page, getBlock chains o height = .json page ∧
      page.Perm (Columns.column (rows chains) height)) ∧
    (Columns.width (rows chains) ≤ height → getBlock chains o height =
      .notFound ("No lattice blocks found at index/height " ++ toString height)) := by
  have hmatching : ((chains.iter o).filterMap (fun e => e.2[height]?)).Perm
      (Columns.column (rows chains) height) := by
    have hperm := (iter_rows chains o).filterMap (fun xs => xs[height]?)
    rwa [List.filterMap_map] at hperm
  constructor
  · intro hlt
    have hne : ¬((chains.iter o).filterMap (fun e => e.2[height]?)).isEmpty := by
      rw [List.isEmpty_iff]
      intro hnil
      rw [hnil] at hmatching
      exact absurd (Columns.column_eq_nil_iff.1 hmatching.symm.eq_nil) (not_le.2 hlt)
    exact ⟨_, if_neg hne, hmatching⟩
  · intro hle
    have hnil : ((chains.iter o).filterMap (fun e => e.2[height]?)).isEmpty := by
      rw [List.isEmpty_iff]
      rw [Columns.column_eq_nil_iff.2 hle] at hmatching
      exact hmatching.eq_nil
    exact if_pos hnil

theorem mem_iter_chain {chains : LatticeChains F} {o : IterOrder (String × List (LatticeBlock F))}
    {e : String × List (LatticeBlock F)} (he : e ∈ chains.iter o) :
    chainOf chains e.1 = e.2 ∧ e.2.length ≤ Columns.width (rows chains) := by
  have hlookup := (HashMap.mem_iter_iff chains o e).1 he
  refine ⟨by rw [chainOf, hlookup]; rfl, Columns.length_le_width ?_⟩
  exact (iter_rows chains o).subset (List.mem_map_of_mem he)

theorem getLatestBlock_eq (chains : LatticeChains F)
    (o : IterOrder (String × List (LatticeBlock F))) :
    (Columns.width (rows chains) = 0 →
      getLatestBlock chains o = .notFound "No lattice blocks available yet") ∧
    (0 < Columns.width (rows chains) → ∃ block id older, getLatestBlock chains o = .json block ∧
      chainOf chains id = older ++ [block] ∧ older.length + 1 = Columns.width (rows chains)) := by
  have hlatest := latest_foldl (chains.iter o)
  rw [getLatestBlock]
  generalize (chains.iter o).foldl latestStep (none, 0) = found at hlatest
  cases hlatest with
  | none h =>
    refine ⟨fun _ => rfl, fun hpos => ?_⟩
    obtain ⟨xs, hxs, hlen⟩ := Columns.exists_of_lt_width hpos
    obtain ⟨e, he, rfl⟩ := List.mem_map.1 ((iter_rows chains o).symm.subset hxs)
    rw [h e he] at hlen
    cases hlen
  | some block e he hlast hlongest =>
    obtain ⟨hchain, hwidth⟩ := mem_iter_chain he
    obtain ⟨older, hsplit⟩ := List.getLast?_eq_some_iff.1 hlast
    have hlen : older.length + 1 = e.2.length := by
      rw [hsplit, List.length_append, List.length_singleton]
    refine ⟨fun hzero => absurd hwidth (by omega), fun _ => ?_⟩
    refine ⟨block, e.1, older, rfl, hchain.trans hsplit, ?_⟩
    rw [hlen]
    refine le_antisymm hwidth (not_lt.1 ?_)
    intro hlt
    obtain ⟨xs, hxs, hlonger⟩ := Columns.exists_of_lt_width hlt
    obtain ⟨e', he', rfl⟩ := List.mem_map.1 ((iter_rows chains o).symm.subset hxs)
    exact absurd (hlongest e' he') (not_le.2 hlonger)

section Walk
variable [LeBytes F] [Sha256]

/-- After any deliveries: whoever asks for the blocks of height 0, 1 and so on until the first 404
gets every accepted block once, as `/blocks` gives them; the latest block is the last of a longest
chain, whose height is the last that has blocks. -/
theorem heights_cover (blocks : List (LatticeBlock F))
    (orders : ℕ → IterOrder (String × List (LatticeBlock F)))
    (o o' : IterOrder (String × List (LatticeBlock F))) :
    let chains := receive ∅ blocks
    ∃ n pages, (∀ h < n, getBlock chains (orders h) h = .json (pages h)) ∧
      getBlock chains (orders n) n =
        .notFound ("No lattice blocks found at index/height " ++ toString n) ∧
      ((List.range n).flatMap pages).Perm (blocks.filter (fun b => HashOk b)) ∧
      (getBlocks chains o).Perm ((List.range n).flatMap pages) ∧
      (n = 0 → getLatestBlock chains o' = .notFound "No lattice blocks available yet") ∧
      (0 < n → ∃ block id older, getLatestBlock chains o' = .json block ∧
        chainOf chains id = older ++ [block] ∧ block ∈ pages (n - 1)) := by
  intro chains
  have hpage : ∀ h, ∃ page, h < Columns.width (rows chains) →
      getBlock chains (orders h) h = .json page ∧
        page.Perm (Columns.column (rows chains) h) := by
    intro h
    by_cases hlt : h < Columns.width (rows chains)
    · obtain ⟨page, hget⟩ := (getBlock_page chains (orders h) h).1 hlt
      exact ⟨page, fun _ => hget⟩
    · exact ⟨[], fun h => absurd h hlt⟩
  choose pages hpages using hpage
  have hrows : (rows chains).flatten = chains.allValues := by
    rw [rows, HashMap.allValues, List.flatMap_def]
  have hall : ((List.range (Columns.width (rows chains))).flatMap pages).Perm chains.allValues := by
    rw [← hrows]
    refine List.Perm.trans (List.Perm.flatMap_left _ ?_) (Columns.flatMap_column_perm (le_refl _))
    intro h hh
    exact (hpages h (List.mem_range.1 hh)).2
  have haccepted : chains.allValues.Perm (blocks.filter (fun b => HashOk b)) := by
    simpa [HashMap.allValues] using allValues_receive ∅ blocks
  refine ⟨Columns.width (rows chains), pages, fun h hlt => (hpages h hlt).1,
    (getBlock_page chains _ _).2 (le_refl _), hall.trans haccepted,
    (HashMap.flatMap_iter_perm chains o).trans hall.symm, (getLatestBlock_eq chains o').1, ?_⟩
  intro hpos
  obtain ⟨block, id, older, hget, hchain, hlen⟩ := (getLatestBlock_eq chains o').2 hpos
  refine ⟨block, id, older, hget, hchain, ?_⟩
  have hlast : Columns.width (rows chains) - 1 = older.length := by omega
  rw [((hpages _ (Nat.sub_lt hpos one_pos)).2).mem_iff, Columns.column, List.mem_filterMap]
  refine ⟨older ++ [block], ?_, ?_⟩
  · cases hlookup : chains.lookup id with
    | none => simp [chainOf, hlookup] at hchain
    | some chain =>
      have hrow : chain = older ++ [block] := by
        rw [← hchain, chainOf, hlookup]
        rfl
      rw [← hrow]
      exact List.mem_map.2 ⟨_, (HashMap.mem_entries_iff chains id chain).2 hlookup, rfl⟩
  · rw [hlast]
    simp

end Walk

end Slakshna.Api

import Mathlib.Data.List.AList

/-! Hash maps as association lists with distinct keys. A loop over a map may meet
the entries in any order, so every loop takes an `IterOrder`. -/
namespace Slakshna
open scoped List

abbrev HashMap (K V : Type*) := AList (fun _ : K => V)

structure IterOrder (α : Type*) where
  arrange : List α → List α
  perm : ∀ l, (arrange l).Perm l

def IterOrder.asStored {α : Type*} : IterOrder α := ⟨id, fun _ => List.Perm.refl _⟩

namespace HashMap
variable {K V : Type*} [DecidableEq K]

def iter (m : HashMap K V) (o : IterOrder (K × V)) : List (K × V) :=
  o.arrange (m.entries.map (fun e => (e.1, e.2)))

/-- `entry(k).or_insert(d)` followed by a write of `f` of the entry. -/
def upsert (m : HashMap K V) (k : K) (d : V) (f : V → V) : HashMap K V :=
  m.insert k (f ((m.lookup k).getD d))

@[simp] theorem lookup_upsert (m : HashMap K V) (k : K) (d : V) (f : V → V) :
    (m.upsert k d f).lookup k = some (f ((m.lookup k).getD d)) := by
  simp [upsert]

@[simp] theorem lookup_upsert_ne (m : HashMap K V) {k j : K} (d : V) (f : V → V) (h : j ≠ k) :
    (m.upsert k d f).lookup j = m.lookup j := by
  simp [upsert, AList.lookup_insert_ne h]

theorem lookup_foldl_insert (ks : List K) (f : K → V) (m : HashMap K V) (k : K) :
    (ks.foldl (fun m j => m.insert j (f j)) m).lookup k =
      if k ∈ ks then some (f k) else m.lookup k := by
  induction ks generalizing m with
  | nil => rfl
  | cons j ks ih =>
    rw [List.foldl_cons, ih]
    by_cases hk : k ∈ ks
    · simp [hk]
    · by_cases hkj : k = j
      · subst hkj
        simp [hk]
      · simp [hk, hkj, AList.lookup_insert_ne hkj]

theorem mem_foldl_insert (ks : List K) (f : K → V) (m : HashMap K V) (k : K) :
    k ∈ ks.foldl (fun m j => m.insert j (f j)) m ↔ k ∈ m ∨ k ∈ ks := by
  rw [← AList.lookup_isSome, lookup_foldl_insert, ← AList.lookup_isSome]
  by_cases hk : k ∈ ks
  · simp [hk]
  · simp [hk]

theorem perm_kerase_of_lookup (m : HashMap K V) {k : K} {v : V} (h : m.lookup k = some v) :
    m.entries.Perm (⟨k, v⟩ :: m.entries.kerase k) := by
  have hk : k ∈ m.entries.keys := AList.lookup_isSome.1 (by rw [h]; rfl)
  obtain ⟨w, l₁, l₂, _, he, hr⟩ := List.exists_of_kerase hk
  have hw : m.lookup k = some w := by
    rw [AList.lookup, ← Option.mem_def, List.mem_dlookup_iff m.nodupKeys, he]
    simp
  obtain rfl : w = v := Option.some.inj (hw.symm.trans h)
  rw [hr, he]
  exact List.perm_middle

theorem mem_entries_iff (m : HashMap K V) (k : K) (v : V) :
    (⟨k, v⟩ : Sigma fun _ : K => V) ∈ m.entries ↔ m.lookup k = some v :=
  (AList.mem_lookup_iff (s := m) (a := k) (b := v)).symm

omit [DecidableEq K] in
theorem iter_perm (m : HashMap K V) (o : IterOrder (K × V)) :
    m.iter o ~ m.entries.map (fun e => (e.1, e.2)) := o.perm _

theorem mem_iter_iff (m : HashMap K V) (o : IterOrder (K × V)) (p : K × V) :
    p ∈ m.iter o ↔ m.lookup p.1 = some p.2 := by
  rw [(iter_perm m o).mem_iff, ← mem_entries_iff, List.mem_map]
  constructor
  · intro h
    obtain ⟨e, he, rfl⟩ := h
    exact he
  · intro h
    exact ⟨_, h, rfl⟩

omit [DecidableEq K] in
theorem nodup_keys_iter (m : HashMap K V) (o : IterOrder (K × V)) :
    ((m.iter o).map Prod.fst).Nodup := by
  rw [((iter_perm m o).map Prod.fst).nodup_iff, List.map_map]
  exact m.keys_nodup

theorem lookup_foldl_upsert {V' : Type*} (d : HashMap K V') (g : V' → V) (f : V' → V → V)
    (m : HashMap K V) (k : K) :
    (d.entries.foldl (fun m e => m.upsert e.1 (g e.2) (f e.2)) m).lookup k =
      match d.lookup k with
      | none => m.lookup k
      | some v => some (f v ((m.lookup k).getD (g v))) := by
  have hfold : ∀ (l : List (Sigma fun _ : K => V')) (m : HashMap K V), l.NodupKeys →
      (l.foldl (fun m e => m.upsert e.1 (g e.2) (f e.2)) m).lookup k =
        match l.dlookup k with
        | none => m.lookup k
        | some v => some (f v ((m.lookup k).getD (g v))) := by
    intro l
    induction l with
    | nil => exact fun m _ => rfl
    | cons e l ih =>
      intro m hl
      obtain ⟨he, hrest⟩ := List.nodupKeys_cons.1 hl
      rw [List.foldl_cons, ih _ hrest]
      by_cases hk : k = e.1
      · subst hk
        rw [List.dlookup_eq_none.2 he, List.dlookup_cons_eq, lookup_upsert]
      · rw [List.dlookup_cons_ne _ _ hk, lookup_upsert_ne m _ _ hk]
  exact hfold d.entries m d.nodupKeys

def mapValues {V' : Type*} (f : V → V') (m : HashMap K V) : HashMap K V' where
  entries := m.entries.map (fun e => ⟨e.1, f e.2⟩)
  nodupKeys := by
    rw [List.NodupKeys, List.keys, List.map_map]
    exact m.nodupKeys

theorem lookup_mapValues {V' : Type*} (f : V → V') (m : HashMap K V) (k : K) :
    (m.mapValues f).lookup k = (m.lookup k).map f := by
  have hmap : ∀ l : List (Sigma fun _ : K => V),
      (l.map (fun e => (⟨e.1, f e.2⟩ : Sigma fun _ : K => V'))).dlookup k =
        (l.dlookup k).map f := by
    intro l
    induction l with
    | nil => rfl
    | cons e l ih =>
      by_cases hk : k = e.1
      · subst hk
        rw [List.map_cons, List.dlookup_cons_eq, List.dlookup_cons_eq]
        rfl
      · rw [List.map_cons, List.dlookup_cons_ne l e hk, ← ih]
        exact List.dlookup_cons_ne _ _ hk
  exact hmap m.entries

def allValues {α : Type*} (m : HashMap K (List α)) : List α :=
  m.entries.flatMap (fun e => e.2)

omit [DecidableEq K] in
theorem flatMap_iter_perm {α : Type*} (m : HashMap K (List α)) (o : IterOrder (K × List α)) :
    (m.iter o).flatMap Prod.snd ~ m.allValues := by
  have h := (iter_perm m o).flatMap_right Prod.snd
  simpa [List.flatMap_map, allValues] using h

/-- `entry(k).or_insert_with(Vec::new).push(x)`. -/
def push {α : Type*} (m : HashMap K (List α)) (k : K) (x : α) : HashMap K (List α) :=
  m.upsert k [] (fun l => l ++ [x])

theorem allValues_push {α : Type*} (m : HashMap K (List α)) (k : K) (x : α) :
    (m.push k x).allValues.Perm (x :: m.allValues) := by
  simp only [push, upsert, allValues, AList.entries_insert, List.flatMap_cons]
  cases h : m.lookup k with
  | none =>
    have hk : k ∉ m.entries.keys := AList.lookup_eq_none.1 h
    simp [List.kerase_of_notMem_keys hk]
  | some l =>
    have hp := (perm_kerase_of_lookup m h).flatMap_right (fun e => e.2)
    calc
      l ++ [x] ++ (m.entries.kerase k).flatMap (fun e => e.2)
          = l ++ x :: (m.entries.kerase k).flatMap (fun e => e.2) := by simp
      _ ~ x :: (l ++ (m.entries.kerase k).flatMap (fun e => e.2)) := List.perm_middle
      _ ~ x :: m.entries.flatMap (fun e => e.2) := List.Perm.cons x (by simpa using hp.symm)

end HashMap
end Slakshna

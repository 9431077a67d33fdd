import Mathlib.Data.List.Basic
import Mathlib.Data.List.Nodup

/-! Trees whose children have names, walked from the top down. The path of an entry is the names on
the way to it. -/
namespace Slakshna.NamedTree
variable {N A : Type*}

inductive Forest (N A : Type*) where
  | nil
  | cons (name : N) (value : A) (below rest : Forest N A)

structure Entry (N A : Type*) where
  path : List N
  value : A
  below : Forest N A

namespace Forest

def under (path : List N) (e : Entry N A) : Entry N A := { e with path := path ++ e.path }

def top : Forest N A → List (Entry N A)
  | nil => []
  | cons n a below rest => ⟨[n], a, below⟩ :: rest.top

def preorder : Forest N A → List (Entry N A)
  | nil => []
  | cons n a below rest =>
    ⟨[n], a, below⟩ :: (below.preorder.map (under [n]) ++ rest.preorder)

def names : Forest N A → List N
  | nil => []
  | cons n _ _ rest => n :: rest.names

def Distinct : Forest N A → Prop
  | nil => True
  | cons n _ below rest => n ∉ rest.names ∧ below.Distinct ∧ rest.Distinct

instance decidableDistinct [DecidableEq N] : (f : Forest N A) → Decidable f.Distinct
  | nil => isTrue trivial
  | cons n _ below rest =>
    let := decidableDistinct below
    let := decidableDistinct rest
    inferInstanceAs (Decidable (n ∉ rest.names ∧ below.Distinct ∧ rest.Distinct))

end Forest

open Forest

def Entry.children (e : Entry N A) : List (Entry N A) := e.below.top.map (under e.path)

structure Tree (N A : Type*) where
  value : A
  below : Forest N A
  distinct : below.Distinct

def Tree.root (t : Tree N A) : Entry N A := ⟨[], t.value, t.below⟩

def Tree.entries (t : Tree N A) : List (Entry N A) := t.root :: t.below.preorder

namespace Forest
variable {f : Forest N A} {e c : Entry N A}

theorem mem_top (h : e ∈ f.top) : ∃ n ∈ f.names, e.path = [n] := by
  induction f with
  | nil => cases h
  | cons n a below rest _ ih =>
    cases List.mem_cons.1 h with
    | inl hfirst => exact ⟨n, List.mem_cons_self, by rw [hfirst]⟩
    | inr hrest =>
      obtain ⟨m, hm, hpath⟩ := ih hrest
      exact ⟨m, List.mem_cons_of_mem n hm, hpath⟩

theorem mem_preorder_path (h : e ∈ f.preorder) : ∃ n ∈ f.names, ∃ p, e.path = n :: p := by
  induction f with
  | nil => cases h
  | cons n a below rest _ ih =>
    cases List.mem_cons.1 h with
    | inl hfirst => exact ⟨n, List.mem_cons_self, [], by rw [hfirst]⟩
    | inr hlater =>
      cases List.mem_append.1 hlater with
      | inl hbelow =>
        obtain ⟨d, _, rfl⟩ := List.mem_map.1 hbelow
        exact ⟨n, List.mem_cons_self, d.path, rfl⟩
      | inr hrest =>
        obtain ⟨m, hm, hpath⟩ := ih hrest
        exact ⟨m, List.mem_cons_of_mem n hm, hpath⟩

theorem pairwise_preorder (h : f.Distinct) :
    f.preorder.Pairwise (fun d e => ¬e.path <+: d.path) := by
  induction f with
  | nil => exact List.Pairwise.nil
  | cons n a below rest ihbelow ihrest =>
    obtain ⟨hname, hbelow, hrest⟩ := h
    -- the names of the trees after this one are different
    have hafter : ∀ e ∈ rest.preorder, ∀ p, ¬e.path <+: n :: p := by
      intro e he p hinit
      obtain ⟨m, hm, q, hpath⟩ := mem_preorder_path he
      rw [hpath, List.cons_prefix_cons] at hinit
      exact hname (hinit.1 ▸ hm)
    rw [preorder, List.pairwise_cons, List.pairwise_append]
    refine ⟨?_, ?_, ihrest hrest, ?_⟩
    · intro e he hinit
      cases List.mem_append.1 he with
      | inl hin =>
        obtain ⟨d, hd, rfl⟩ := List.mem_map.1 hin
        obtain ⟨m, _, q, hpath⟩ := mem_preorder_path hd
        simp [under, hpath] at hinit
      | inr hin => exact hafter e hin [] hinit
    · rw [List.pairwise_map]
      apply (ihbelow hbelow).imp
      intro d e hnot hinit
      exact hnot (List.cons_prefix_cons.1 hinit).2
    · intro d hd e he hinit
      obtain ⟨d', _, rfl⟩ := List.mem_map.1 hd
      exact hafter e he d'.path hinit

theorem Distinct.below (h : f.Distinct) (he : e ∈ f.preorder) : e.below.Distinct := by
  induction f generalizing e with
  | nil => cases he
  | cons n a below rest ihbelow ihrest =>
    cases List.mem_cons.1 he with
    | inl hfirst => exact hfirst ▸ h.2.1
    | inr hlater =>
      cases List.mem_append.1 hlater with
      | inl hin =>
        obtain ⟨d, hd, rfl⟩ := List.mem_map.1 hin
        change d.below.Distinct
        exact ihbelow h.2.1 hd
      | inr hin => exact ihrest h.2.2 hin

theorem nodup_top (h : f.Distinct) : (f.top.map Entry.path).Nodup := by
  induction f with
  | nil => exact List.nodup_nil
  | cons n a below rest _ ih =>
    rw [top, List.map_cons, List.nodup_cons]
    refine ⟨?_, ih h.2.2⟩
    intro hmem
    obtain ⟨e, he, hpath⟩ := List.mem_map.1 hmem
    obtain ⟨m, hm, hname⟩ := mem_top he
    rw [hname, List.singleton_inj] at hpath
    exact h.1 (hpath ▸ hm)

theorem top_subset (he : e ∈ f.top) : e ∈ f.preorder := by
  induction f with
  | nil => cases he
  | cons n a below rest _ ih =>
    cases List.mem_cons.1 he with
    | inl hfirst => exact List.mem_cons.2 (Or.inl hfirst)
    | inr hrest => exact List.mem_cons_of_mem _ (List.mem_append_right _ (ih hrest))

theorem children_under (p : List N) (e : Entry N A) :
    (under p e).children = e.children.map (under p) := by
  simp [Entry.children, under, Function.comp_def]

theorem mem_children (he : e ∈ f.preorder) (hc : c ∈ e.children) : c ∈ f.preorder := by
  induction f generalizing e c with
  | nil => cases he
  | cons n a below rest ihbelow ihrest =>
    cases List.mem_cons.1 he with
    | inl hfirst =>
      obtain ⟨d, hd, rfl⟩ := List.mem_map.1 hc
      subst hfirst
      exact List.mem_cons_of_mem _ (List.mem_append_left _ (List.mem_map_of_mem (top_subset hd)))
    | inr hlater =>
      cases List.mem_append.1 hlater with
      | inl hin =>
        obtain ⟨d, hd, rfl⟩ := List.mem_map.1 hin
        rw [children_under] at hc
        obtain ⟨d', hd', rfl⟩ := List.mem_map.1 hc
        exact List.mem_cons_of_mem _
          (List.mem_append_left _ (List.mem_map_of_mem (ihbelow hd hd')))
      | inr hin => exact List.mem_cons_of_mem _ (List.mem_append_right _ (ihrest hin hc))

theorem exists_parent (he : e ∈ f.preorder) : e ∈ f.top ∨ ∃ d ∈ f.preorder, e ∈ d.children := by
  induction f generalizing e with
  | nil => cases he
  | cons n a below rest ihbelow ihrest =>
    cases List.mem_cons.1 he with
    | inl hfirst => exact Or.inl (List.mem_cons.2 (Or.inl hfirst))
    | inr hlater =>
      cases List.mem_append.1 hlater with
      | inl hin =>
        obtain ⟨e', he', rfl⟩ := List.mem_map.1 hin
        right
        cases ihbelow he' with
        | inl htop => exact ⟨⟨[n], a, below⟩, List.mem_cons_self, List.mem_map_of_mem htop⟩
        | inr hparent =>
          obtain ⟨d, hd, hchild⟩ := hparent
          refine ⟨under [n] d,
            List.mem_cons_of_mem _ (List.mem_append_left _ (List.mem_map_of_mem hd)), ?_⟩
          rw [children_under]
          exact List.mem_map_of_mem hchild
      | inr hin =>
        cases ihrest hin with
        | inl htop => exact Or.inl (List.mem_cons_of_mem _ htop)
        | inr hparent =>
          obtain ⟨d, hd, hchild⟩ := hparent
          exact Or.inr ⟨d, List.mem_cons_of_mem _ (List.mem_append_right _ hd), hchild⟩

end Forest

namespace Tree
variable {t : Tree N A} {c d e : Entry N A}

theorem children_root : t.root.children = t.below.top := by
  have hunder : under (A := A) ([] : List N) = id := by
    funext e
    rfl
  simp [Entry.children, root, hunder]

theorem pairwise_entries (t : Tree N A) :
    t.entries.Pairwise (fun d e => ¬e.path <+: d.path) := by
  rw [entries, List.pairwise_cons]
  refine ⟨?_, pairwise_preorder t.distinct⟩
  intro e he hinit
  obtain ⟨n, _, p, hpath⟩ := mem_preorder_path he
  rw [hpath, root, List.prefix_nil] at hinit
  cases hinit

theorem nodup_entries (t : Tree N A) : (t.entries.map Entry.path).Nodup := by
  rw [List.Nodup, List.pairwise_map]
  apply t.pairwise_entries.imp
  intro d e hnot heq
  exact hnot (heq ▸ List.prefix_rfl)

theorem eq_of_path (hd : d ∈ t.entries) (he : e ∈ t.entries) (h : d.path = e.path) : d = e :=
  List.inj_on_of_nodup_map t.nodup_entries hd he h

theorem mem_children (he : e ∈ t.entries) (hc : c ∈ e.children) : c ∈ t.entries := by
  cases List.mem_cons.1 he with
  | inl hroot =>
    rw [hroot, children_root] at hc
    exact List.mem_cons_of_mem _ (top_subset hc)
  | inr hbelow => exact List.mem_cons_of_mem _ (Forest.mem_children hbelow hc)

theorem nodup_children (he : e ∈ t.entries) : (e.children.map Entry.path).Nodup := by
  have hdistinct : e.below.Distinct := by
    cases List.mem_cons.1 he with
    | inl hroot => exact hroot ▸ t.distinct
    | inr hbelow => exact t.distinct.below hbelow
  have hpaths : e.children.map Entry.path = (e.below.top.map Entry.path).map (e.path ++ ·) := by
    simp [Entry.children, under, Function.comp_def]
  rw [hpaths]
  exact (nodup_top hdistinct).map (List.append_right_injective e.path)

theorem path_of_child (hc : c ∈ e.children) : ∃ n, c.path = e.path ++ [n] := by
  obtain ⟨d, hd, rfl⟩ := List.mem_map.1 hc
  obtain ⟨n, _, hn⟩ := mem_top hd
  exact ⟨n, by rw [under, hn]⟩

theorem exists_parent (he : e ∈ t.entries) {p : List N} {n : N} (h : e.path = p ++ [n]) :
    ∃ d ∈ t.entries, d.path = p ∧ e ∈ d.children := by
  cases List.mem_cons.1 he with
  | inl hroot => simp [hroot, root] at h
  | inr hbelow =>
    have hparent : ∃ d ∈ t.entries, e ∈ d.children := by
      cases Forest.exists_parent hbelow with
      | inl htop => exact ⟨t.root, List.mem_cons_self, children_root ▸ htop⟩
      | inr hd =>
        obtain ⟨d, hd, hchild⟩ := hd
        exact ⟨d, List.mem_cons_of_mem _ hd, hchild⟩
    obtain ⟨d, hd, hchild⟩ := hparent
    obtain ⟨m, hm⟩ := path_of_child hchild
    exact ⟨d, hd, (List.append_inj' (hm.symm.trans h) rfl).1, hchild⟩

theorem parent_before {xs ys : List (Entry N A)} (h : t.entries = xs ++ e :: ys)
    (hd : d ∈ t.entries) (hchild : e ∈ d.children) : d ∈ xs := by
  obtain ⟨n, hn⟩ := path_of_child hchild
  have hpairwise := t.pairwise_entries
  rw [h] at hd hpairwise
  cases List.mem_append.1 hd with
  | inl hbefore => exact hbefore
  | inr hafter =>
    cases List.mem_cons.1 hafter with
    | inl heq => simp [heq] at hn
    | inr hlater =>
      have hnot := (List.pairwise_cons.1 (List.pairwise_append.1 hpairwise).2.1).1 d hlater
      exact absurd (hn ▸ List.prefix_append d.path [n]) hnot

end Tree

end Slakshna.NamedTree

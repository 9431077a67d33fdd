import Mathlib.Algebra.Order.BigOperators.Group.List
import Mathlib.Algebra.Order.Group.Nat
import Mathlib.Data.List.Induction
import Slakshna.Lib.FileTree

/-! The removal of a directory tree one system call at a time, each of which finds what the calls of
other processes have left: every directory is listed when the removal reaches it. -/
namespace Slakshna.FileTree
variable {N C : Type} [DecidableEq N]

inductive Removal (N : Type) where
  | list (p : List N)
  | unlink (p : List N)
  | rmdir (p : List N)
  deriving DecidableEq

def Removal.path : Removal N → List N
  | .list p => p
  | .unlink p => p
  | .rmdir p => p

/-- What removals do alike: the top directory, the order of each listing, and whether an entry that
is gone below the top is passed over. -/
structure RemovalMode (N : Type) where
  top : List N
  listing : List N → IterOrder N
  tolerant : Bool

def Removal.ofEntry (t : Tree N C) (p : List N) (n : N) : Removal N :=
  if isDir t (p ++ [n]) then .list (p ++ [n]) else .unlink (p ++ [n])

def RemovalMode.missing (mode : RemovalMode N) (t : Tree N C) (p : List N) :
    Option (Tree N C × List (Removal N)) :=
  if mode.tolerant = true ∧ p ≠ mode.top then some (t, []) else none

/-- One call, with the calls it gives rise to; nothing where it raises. -/
def Removal.advance (mode : RemovalMode N) (t : Tree N C) :
    Removal N → Option (Tree N C × List (Removal N))
  | .list p =>
    if isDir t p then
      some (t, ((mode.listing p).arrange (children t p)).map (Removal.ofEntry t p) ++ [.rmdir p])
    else if p ∈ t then none
    else mode.missing t p
  | .unlink p =>
    if isDir t p then none
    else if p ∈ t then some (t.erase p, [])
    else mode.missing t p
  | .rmdir p =>
    if isDir t p then
      if children t p = [] then some (t.erase p, []) else none
    else if p ∈ t then none
    else mode.missing t p

inductive Completes (mode : RemovalMode N) : Tree N C → List (Removal N) → Tree N C → Prop
  | done (t : Tree N C) : Completes mode t [] t
  | call {t t' t'' : Tree N C} {x : Removal N} {more rest : List (Removal N)}
      (h : x.advance mode t = some (t', more)) (hrest : Completes mode t' (more ++ rest) t'') :
      Completes mode t (x :: rest) t''

theorem Completes.last {mode : RemovalMode N} {t t' : Tree N C} {x : Removal N}
    (h : x.advance mode t = some (t', [])) : Completes mode t [x] t' := .call h (.done t')

theorem Completes.append {mode : RemovalMode N} {t t' t'' : Tree N C} {xs ys : List (Removal N)}
    (hxs : Completes mode t xs t') (hys : Completes mode t' ys t'') :
    Completes mode t (xs ++ ys) t'' := by
  induction hxs with
  | done t => exact hys
  | call h hrest ih =>
    rw [List.cons_append]
    apply Completes.call h
    rw [← List.append_assoc]
    exact ih hys

/-! What stands below a path, and what a removal leaves of it. -/

def Rooted (t : Tree N C) : Prop := ∀ p n, p ++ [n] ∈ t → isDir t p = true

def Cleared (p : List N) (t t' : Tree N C) : Prop :=
  ∀ q, t'.lookup q = if p <+: q then none else t.lookup q

theorem mem_of_isDir {t : Tree N C} {p : List N} (h : isDir t p = true) : p ∈ t := by
  rw [← AList.lookup_isSome, isDir_iff.1 h]
  rfl

theorem isDir_congr {t t' : Tree N C} {p : List N} (h : t'.lookup p = t.lookup p) :
    isDir t' p = isDir t p := by
  rw [isDir, isDir, h]

theorem isDir_erase_of_ne {t : Tree N C} {p q : List N} (h : q ≠ p) :
    isDir (t.erase p) q = isDir t q := isDir_congr (AList.lookup_erase_ne h)

theorem isDir_erase_self (t : Tree N C) (p : List N) : isDir (t.erase p) p = false := by
  rw [isDir, AList.lookup_erase]

theorem isDir_of_isDir_erase {t : Tree N C} {p q : List N} (h : isDir (t.erase p) q = true) :
    isDir t q = true := by
  by_cases hqp : q = p
  · rw [hqp, isDir_erase_self] at h
    cases h
  · rwa [isDir_erase_of_ne hqp] at h

theorem Rooted.isDir_of_below {t : Tree N C} (ht : Rooted t) {p q : List N} (hpq : p <+: q)
    (hne : q ≠ p) (hq : q ∈ t) : isDir t p = true := by
  obtain ⟨tail, rfl⟩ := hpq
  induction tail using List.reverseRecOn with
  | nil => exact absurd (List.append_nil p) hne
  | append_singleton tail n ih =>
    rw [← List.append_assoc] at hq
    have hdir := ht (p ++ tail) n hq
    by_cases htail : tail = []
    · rwa [htail, List.append_nil] at hdir
    · exact ih (fun h => htail (List.append_right_eq_self.1 h)) (mem_of_isDir hdir)

theorem Cleared.mem_iff {t t' : Tree N C} {p : List N} (h : Cleared p t t') (q : List N) :
    q ∈ t' ↔ q ∈ t ∧ ¬p <+: q := by
  rw [← AList.lookup_isSome, ← AList.lookup_isSome, h q]
  split <;> simp [*]

theorem Cleared.not_pathExists {t t' : Tree N C} {p : List N} (h : Cleared p t t') :
    pathExists t' p = false := by
  rw [Bool.eq_false_iff]
  intro hexists
  obtain ⟨q, hq, hpq⟩ := pathExists_iff.1 hexists
  exact ((h.mem_iff q).1 hq).2 hpq

theorem Cleared.isDir_eq {t t' : Tree N C} {p q : List N} (h : Cleared p t t') (hq : ¬p <+: q) :
    isDir t' q = isDir t q := by
  apply isDir_congr
  rw [h q, if_neg hq]

theorem Cleared.rooted {t t' : Tree N C} {p : List N} (h : Cleared p t t') (ht : Rooted t) :
    Rooted t' := by
  intro q n hqn
  obtain ⟨hmem, hp⟩ := (h.mem_iff _).1 hqn
  rw [h.isDir_eq (fun hpq => hp (hpq.trans (List.prefix_append q [n])))]
  exact ht q n hmem

theorem cleared_erase {t : Tree N C} {p : List N} (h : ∀ q ∈ t, p <+: q → q = p) :
    Cleared p t (t.erase p) := by
  intro q
  by_cases hqp : q = p
  · rw [hqp, AList.lookup_erase, if_pos (List.prefix_refl p)]
  · rw [AList.lookup_erase_ne hqp]
    split
    · next hpq => exact AList.lookup_eq_none.2 (fun hq => hqp (h q hq hpq))
    · rfl

def Depth (n : ℕ) (t : Tree N C) (p : List N) : Prop :=
  ∀ q ∈ t, p <+: q → q.length ≤ p.length + n

def Removable (mode : RemovalMode N) (t : Tree N C) (p : List N) : Prop :=
  ∃ t', Completes mode t [.list p] t' ∧ Cleared p t t'

theorem completes_entries {mode : RemovalMode N} {t₀ : Tree N C} {p : List N} {names : List N}
    (hnodup : names.Nodup) {t : Tree N C} (ht : Rooted t) (hmem : ∀ n ∈ names, p ++ [n] ∈ t)
    (hkind : ∀ n ∈ names, isDir t (p ++ [n]) = isDir t₀ (p ++ [n]))
    (hremovable : ∀ n ∈ names, ∀ t' : Tree N C, Rooted t' → (∀ q ∈ t', q ∈ t) →
      isDir t' (p ++ [n]) = true → Removable mode t' (p ++ [n])) :
    ∃ t', Completes mode t (names.map (Removal.ofEntry t₀ p)) t' ∧ Rooted t' ∧
      ∀ q, t'.lookup q = if ∃ n ∈ names, p ++ [n] <+: q then none else t.lookup q := by
  induction names generalizing t with
  | nil => exact ⟨t, .done t, ht, fun q => by simp⟩
  | cons n names ih =>
    obtain ⟨hn, hnodup⟩ := List.nodup_cons.1 hnodup
    have hfirst : ∃ t₁, Completes mode t [Removal.ofEntry t₀ p n] t₁ ∧ Cleared (p ++ [n]) t t₁ := by
      rw [Removal.ofEntry, ← hkind n List.mem_cons_self]
      by_cases hdir : isDir t (p ++ [n]) = true
      · rw [if_pos hdir]
        exact hremovable n List.mem_cons_self t ht (fun q hq => hq) hdir
      · rw [if_neg hdir]
        refine ⟨t.erase (p ++ [n]), ?_, ?_⟩
        · apply Completes.last
          rw [Removal.advance, if_neg hdir, if_pos (hmem n List.mem_cons_self)]
        · apply cleared_erase
          intro q hq hpq
          by_contra hne
          exact hdir (ht.isDir_of_below hpq hne hq)
    obtain ⟨t₁, hcall, hcleared⟩ := hfirst
    have happart : ∀ m ∈ names, ¬p ++ [n] <+: p ++ [m] := by
      intro m hm hbelow
      rw [List.prefix_append_right_inj, List.cons_prefix_cons] at hbelow
      exact hn (hbelow.1 ▸ hm)
    have hrest := ih hnodup (hcleared.rooted ht)
      (fun m hm => (hcleared.mem_iff _).2 ⟨hmem m (List.mem_cons_of_mem _ hm), happart m hm⟩)
      (fun m hm => (hcleared.isDir_eq (happart m hm)).trans (hkind m (List.mem_cons_of_mem _ hm)))
      (fun m hm t' ht' hsub => hremovable m (List.mem_cons_of_mem _ hm) t' ht'
        (fun q hq => ((hcleared.mem_iff q).1 (hsub q hq)).1))
    obtain ⟨t', hcalls, hrooted, hlookup⟩ := hrest
    refine ⟨t', hcall.append hcalls, hrooted, ?_⟩
    intro q
    rw [hlookup q, hcleared q]
    simp only [List.exists_mem_cons_iff]
    by_cases hq : p ++ [n] <+: q <;> simp [hq]

theorem removable_of_entries {mode : RemovalMode N} {t : Tree N C} {p : List N} (ht : Rooted t)
    (hdir : isDir t p = true)
    (hentries : ∀ n, p ++ [n] ∈ t → ∀ t' : Tree N C, Rooted t' → (∀ q ∈ t', q ∈ t) →
      isDir t' (p ++ [n]) = true → Removable mode t' (p ++ [n])) : Removable mode t p := by
  have hlisted : ∀ n, n ∈ (mode.listing p).arrange (children t p) ↔ p ++ [n] ∈ t :=
    fun n => ((mode.listing p).perm _).mem_iff.trans mem_children
  have hnodup : ((mode.listing p).arrange (children t p)).Nodup :=
    ((mode.listing p).perm _).nodup_iff.2 (nodup_children t p)
  obtain ⟨t₁, hcalls, hrooted, hlookup⟩ := completes_entries hnodup ht
    (fun n hn => (hlisted n).1 hn) (fun n _ => (rfl : _ = isDir t (p ++ [n])))
    (fun n hn => hentries n ((hlisted n).1 hn))
  -- What is left at and below `p` is `p` itself.
  have hleft : ∀ q ∈ t₁, p <+: q → q = p := by
    intro q hq hpq
    by_contra hne
    obtain ⟨tail, rfl⟩ := hpq
    cases tail with
    | nil => exact hne (List.append_nil p)
    | cons n tail =>
      have hbelow : p ++ [n] <+: p ++ n :: tail := ⟨tail, by simp⟩
      rw [← AList.lookup_isSome, hlookup] at hq
      split at hq
      · cases hq
      · next hnone =>
        have hqt : p ++ n :: tail ∈ t := AList.lookup_isSome.1 hq
        have hn : p ++ [n] ∈ t := by
          by_cases hself : p ++ n :: tail = p ++ [n]
          · rwa [hself] at hqt
          · exact mem_of_isDir (ht.isDir_of_below hbelow hself hqt)
        exact hnone ⟨n, (hlisted n).2 hn, hbelow⟩
  have hdir₁ : isDir t₁ p = true := by
    rw [← hdir]
    apply isDir_congr
    rw [hlookup p, if_neg]
    intro hn
    obtain ⟨n, _, hbelow⟩ := hn
    have hlength := hbelow.length_le
    rw [List.length_append, List.length_singleton] at hlength
    omega
  have hempty : children t₁ p = [] := by
    rw [List.eq_nil_iff_forall_not_mem]
    intro n hn
    have hself := hleft _ (mem_children.1 hn) (List.prefix_append p [n])
    simp at hself
  refine ⟨t₁.erase p, ?_, ?_⟩
  · have hlist : (Removal.list p).advance mode t = some (t, _) := if_pos hdir
    apply Completes.call hlist
    rw [List.append_nil]
    apply hcalls.append
    apply Completes.last
    rw [Removal.advance, if_pos hdir₁, if_pos hempty]
  · intro q
    rw [cleared_erase hleft q, hlookup q]
    by_cases hpq : p <+: q
    · rw [if_pos hpq, if_pos hpq]
    · have hnone : ¬∃ n ∈ (mode.listing p).arrange (children t p), p ++ [n] <+: q := by
        intro hn
        obtain ⟨n, _, hbelow⟩ := hn
        exact hpq ((List.prefix_append p [n]).trans hbelow)
      rw [if_neg hpq, if_neg hnone, if_neg hpq]

theorem removable_of_depth {mode : RemovalMode N} (n : ℕ) {t : Tree N C} {p : List N}
    (ht : Rooted t) (hdir : isDir t p = true) (hdepth : Depth n t p) : Removable mode t p := by
  induction n generalizing t p with
  | zero =>
    apply removable_of_entries ht hdir
    intro m hm
    have hlength := hdepth _ hm (List.prefix_append p [m])
    rw [List.length_append, List.length_singleton] at hlength
    omega
  | succ n ih =>
    apply removable_of_entries ht hdir
    intro m hm t' ht' hsub hdir'
    apply ih ht' hdir'
    intro q hq hmq
    have hlength := hdepth q (hsub q hq) ((List.prefix_append p [m]).trans hmq)
    rw [List.length_append, List.length_singleton]
    omega

theorem removable (mode : RemovalMode N) {t : Tree N C} {p : List N} (ht : Rooted t)
    (hdir : isDir t p = true) : Removable mode t p := by
  apply removable_of_depth ((t.keys.map List.length).sum) ht hdir
  intro q hq _
  have hlength : q.length ≤ (t.keys.map List.length).sum :=
    List.single_le_sum (fun k _ => Nat.zero_le k) _ (List.mem_map_of_mem hq)
  omega

theorem cleared_rmtree (order : DeleteOrder N) (t : Tree N C) (p : List N) :
    Cleared p t (exec t (rmtree order t p)) := by
  intro q
  rw [rmtree, exec_deletes, lookup_eraseAll]
  by_cases hpq : p <+: q
  · rw [if_pos hpq]
    split
    · rfl
    · next hnot =>
      refine AList.lookup_eq_none.2 (fun hq => hnot ?_)
      exact (order.perm _).mem_iff.2 (mem_below.2 ⟨hq, hpq⟩)
  · rw [if_neg hpq, if_neg (fun hq => hpq (mem_below.1 ((order.perm _).mem_iff.1 hq)).2)]

theorem completes_rmtree (mode : RemovalMode N) (order : DeleteOrder N) {t : Tree N C} {p : List N}
    (ht : Rooted t) (hdir : isDir t p = true) :
    ∃ t', Completes mode t [.list p] t' ∧
      ∀ q, t'.lookup q = (exec t (rmtree order t p)).lookup q := by
  obtain ⟨t', hcompletes, hcleared⟩ := removable mode ht hdir
  exact ⟨t', hcompletes, fun q => by rw [hcleared q, cleared_rmtree order t p q]⟩

def EndsAtTop (mode : RemovalMode N) (todo : List (Removal N)) : Prop :=
  todo.getLast? = some (.list mode.top) ∨ todo.getLast? = some (.rmdir mode.top)

theorem advance_cases {mode : RemovalMode N} {t t' : Tree N C} {x : Removal N}
    {more : List (Removal N)} (h : x.advance mode t = some (t', more)) :
    t' = t ∨ t' = t.erase x.path := by
  have hmissing : ∀ p, mode.missing t p = some (t', more) → t' = t := by
    intro p hp
    rw [RemovalMode.missing] at hp
    split at hp
    · cases hp
      rfl
    · cases hp
  cases x with
  | list p =>
    rw [Removal.advance] at h
    split at h
    · cases h
      exact .inl rfl
    · split at h
      · cases h
      · exact .inl (hmissing p h)
  | unlink p =>
    rw [Removal.advance] at h
    split at h
    · cases h
    · split at h
      · cases h
        exact .inr rfl
      · exact .inl (hmissing p h)
  | rmdir p =>
    rw [Removal.advance] at h
    split at h
    · split at h
      · cases h
        exact .inr rfl
      · cases h
    · split at h
      · cases h
      · exact .inl (hmissing p h)

theorem isDir_of_advance {mode : RemovalMode N} {t t' : Tree N C} {x : Removal N}
    {more : List (Removal N)} (h : x.advance mode t = some (t', more)) {q : List N}
    (hq : isDir t' q = true) : isDir t q = true := by
  cases advance_cases h with
  | inl hkept => rwa [← hkept]
  | inr herased =>
    rw [herased] at hq
    exact isDir_of_isDir_erase hq

theorem advance_endsAtTop {mode : RemovalMode N} {t t' : Tree N C} {x : Removal N}
    {more rest : List (Removal N)} (hx : EndsAtTop mode (x :: rest))
    (h : x.advance mode t = some (t', more)) : EndsAtTop mode (more ++ rest) ∨
      more ++ rest = [] ∧ isDir t mode.top = true ∧ isDir t' mode.top = false := by
  cases rest with
  | cons y rest =>
    left
    rwa [EndsAtTop, List.getLast?_append_cons, ← List.getLast?_cons_cons]
  | nil =>
    have hx' : x = .list mode.top ∨ x = .rmdir mode.top := by simpa [EndsAtTop] using hx
    rw [List.append_nil]
    cases hx' with
    | inl hlist =>
      subst hlist
      rw [Removal.advance] at h
      split at h
      · cases h
        left
        right
        rw [List.getLast?_concat]
      · simp [RemovalMode.missing] at h
    | inr hrmdir =>
      subst hrmdir
      rw [Removal.advance] at h
      split at h
      · next hdir =>
        split at h
        · cases h
          exact Or.inr ⟨rfl, hdir, isDir_erase_self t mode.top⟩
        · cases h
      · simp [RemovalMode.missing] at h

theorem Completes.isDir_top {mode : RemovalMode N} {t t' : Tree N C} {todo : List (Removal N)}
    (h : Completes mode t todo t') (htop : EndsAtTop mode todo) : isDir t mode.top = true := by
  induction h with
  | done t => exact htop.elim nofun nofun
  | call h hrest ih =>
    cases advance_endsAtTop htop h with
    | inl hends => exact isDir_of_advance h (ih hends)
    | inr hlast => exact hlast.2.1

end Slakshna.FileTree

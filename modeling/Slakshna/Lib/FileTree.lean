import Mathlib.Data.List.Sort
import Slakshna.Lib.HashMap

/-! A directory as a map from paths to what stands there, the system calls that change it, and
programs of such calls, which a crash may cut short between any two of them. -/
namespace Slakshna.FileTree
variable {N C : Type}

inductive Entry (C : Type) where
  | dir
  | file (content : C)
  deriving DecidableEq

abbrev Tree (N C : Type) := HashMap (List N) (Entry C)

inductive Op (N C : Type) where
  | mkdir (p : List N)
  | write (p : List N) (content : C)
  | delete (p : List N)
  | rename (src dst : List N)
  deriving DecidableEq

structure DeleteOrder (N : Type) where
  arrange : List (List N) → List (List N)
  perm : ∀ l, (arrange l).Perm l
  children_first : ∀ l, (arrange l).Pairwise (fun p q => p <+: q → p = q)

def DeleteOrder.deepestFirst : DeleteOrder N where
  arrange := fun l => l.insertionSort (fun p q => q.length ≤ p.length)
  perm := fun l => List.perm_insertionSort _ l
  children_first := by
    intro l
    apply (List.pairwise_insertionSort (fun p q : List N => q.length ≤ p.length) l).imp
    intro p q hlength hpq
    exact hpq.eq_of_length_le hlength

theorem eq_of_below {m n : N} {p : List N} (hm : [m] <+: p) (hn : [n] <+: p) : m = n := by
  obtain ⟨tail, rfl⟩ := hm
  exact (List.cons_prefix_cons.1 hn).1.symm

variable [DecidableEq N]

def isDir (t : Tree N C) (p : List N) : Bool :=
  match t.lookup p with
  | some .dir => true
  | _ => false

def children (t : Tree N C) (p : List N) : List N :=
  t.keys.filterMap (fun q => if q.dropLast = p then q.getLast? else none)

def below (t : Tree N C) (p : List N) : List (List N) := t.keys.filter (fun q => decide (p <+: q))

def pathExists (t : Tree N C) (p : List N) : Bool := !(below t p).isEmpty

def eraseAll (ps : List (List N)) (t : Tree N C) : Tree N C := ps.foldl (fun t p => t.erase p) t

def renamed (src dst : List N) (t : Tree N C) : Tree N C :=
  ((below t src).map (fun p => dst ++ p.drop src.length)).foldl
    (fun t' p => t'.insert p ((t.lookup (src ++ p.drop dst.length)).getD .dir))
    (eraseAll (below t src) t)

def Op.apply (t : Tree N C) : Op N C → Tree N C
  | .mkdir p => if p ∈ t then t else t.insert p .dir
  | .write p content => t.insert p (.file content)
  | .delete p => t.erase p
  | .rename src dst => renamed src dst t

def exec (t : Tree N C) (ops : List (Op N C)) : Tree N C := ops.foldl Op.apply t

def rmtree (order : DeleteOrder N) (t : Tree N C) (p : List N) : List (Op N C) :=
  (order.arrange (below t p)).map Op.delete

/-! Programs: each phase reads the tree it starts from and then makes its calls. -/

abbrev Phase (N C : Type) [DecidableEq N] := Tree N C → List (Op N C)

def execAll : List (Phase N C) → Tree N C → Tree N C
  | [], t => t
  | phase :: rest, t => execAll rest (exec t (phase t))

def execCut : List (Phase N C) → ℕ → Tree N C → Tree N C
  | [], _, t => t
  | phase :: rest, k, t =>
    if k < (phase t).length then exec t ((phase t).take k)
    else execCut rest (k - (phase t).length) (exec t (phase t))

def callCount : List (Phase N C) → Tree N C → ℕ
  | [], _ => 0
  | phase :: rest, t => (phase t).length + callCount rest (exec t (phase t))

def CutIn (Ok : Tree N C → List (Op N C) → ℕ → Prop) : List (Phase N C) → ℕ → Tree N C → Prop
  | [], _, _ => True
  | phase :: rest, k, t =>
    if k < (phase t).length then Ok t (phase t) k
    else CutIn Ok rest (k - (phase t).length) (exec t (phase t))

theorem isDir_iff {t : Tree N C} {p : List N} : isDir t p = true ↔ t.lookup p = some .dir := by
  rw [isDir]
  split
  · next h => simp [h]
  · next h => exact iff_of_false Bool.false_ne_true h

theorem mem_children {t : Tree N C} {p : List N} {n : N} : n ∈ children t p ↔ p ++ [n] ∈ t := by
  rw [children, List.mem_filterMap]
  constructor
  · intro h
    obtain ⟨q, hq, hn⟩ := h
    split at hn
    · next hp =>
      obtain ⟨q', rfl⟩ := List.getLast?_eq_some_iff.1 hn
      rw [List.dropLast_concat] at hp
      rwa [← hp]
    · cases hn
  · intro h
    refine ⟨p ++ [n], h, ?_⟩
    rw [List.dropLast_concat, if_pos rfl, List.getLast?_concat]

theorem nodup_children (t : Tree N C) (p : List N) : (children t p).Nodup := by
  apply List.Nodup.filterMap _ t.keys_nodup
  intro q r n hq hr
  simp only [Option.mem_def] at hq hr
  split at hq <;> split at hr
  · next hqp hrp =>
    obtain ⟨q', rfl⟩ := List.getLast?_eq_some_iff.1 hq
    obtain ⟨r', rfl⟩ := List.getLast?_eq_some_iff.1 hr
    rw [List.dropLast_concat] at hqp hrp
    rw [hqp, hrp]
  all_goals simp_all

theorem mem_below {t : Tree N C} {p q : List N} : q ∈ below t p ↔ q ∈ t ∧ p <+: q := by
  rw [below, List.mem_filter, decide_eq_true_iff]
  rfl

theorem pathExists_iff {t : Tree N C} {p : List N} :
    pathExists t p = true ↔ ∃ q ∈ t, p <+: q := by
  rw [pathExists, Bool.not_eq_true', List.isEmpty_eq_false_iff_exists_mem]
  simp only [mem_below]

theorem lookup_eraseAll (ps : List (List N)) (t : Tree N C) (q : List N) :
    (eraseAll ps t).lookup q = if q ∈ ps then none else t.lookup q := by
  induction ps generalizing t with
  | nil => rfl
  | cons p ps ih =>
    rw [eraseAll, List.foldl_cons, ← eraseAll, ih]
    by_cases hps : q ∈ ps
    · simp [hps]
    · by_cases hqp : q = p
      · subst hqp
        simp [hps]
      · simp [hps, hqp, AList.lookup_erase_ne hqp]

theorem exec_append (t : Tree N C) (ops ops' : List (Op N C)) :
    exec t (ops ++ ops') = exec (exec t ops) ops' := List.foldl_append

theorem exec_deletes (ps : List (List N)) (t : Tree N C) :
    exec t (ps.map Op.delete) = eraseAll ps t := by
  rw [exec, List.foldl_map]
  rfl

theorem lookup_renamed (src dst : List N) (t : Tree N C) (q : List N) :
    (renamed src dst t).lookup q =
      if dst <+: q ∧ src ++ q.drop dst.length ∈ t then t.lookup (src ++ q.drop dst.length)
      else if src <+: q then none else t.lookup q := by
  have hmem : q ∈ (below t src).map (fun p => dst ++ p.drop src.length) ↔
      dst <+: q ∧ src ++ q.drop dst.length ∈ t := by
    rw [List.mem_map]
    constructor
    · intro h
      obtain ⟨p, hp, rfl⟩ := h
      obtain ⟨hpt, rest, rfl⟩ := mem_below.1 hp
      simpa using hpt
    · intro h
      obtain ⟨⟨rest, rfl⟩, hpt⟩ := h
      rw [List.drop_left] at hpt
      exact ⟨src ++ rest, mem_below.2 ⟨hpt, List.prefix_append _ _⟩, by simp⟩
  rw [renamed, HashMap.lookup_foldl_insert]
  by_cases hq : dst <+: q ∧ src ++ q.drop dst.length ∈ t
  · obtain ⟨e, he⟩ := Option.isSome_iff_exists.1 (AList.lookup_isSome.2 hq.2)
    rw [if_pos (hmem.2 hq), if_pos hq, he]
    rfl
  · rw [if_neg (fun h => hq (hmem.1 h)), if_neg hq, lookup_eraseAll]
    by_cases hsrc : src <+: q
    · rw [if_pos hsrc]
      by_cases hqt : q ∈ t
      · rw [if_pos (mem_below.2 ⟨hqt, hsrc⟩)]
      · rw [AList.lookup_eq_none.2 hqt, ite_self]
    · rw [if_neg hsrc, if_neg (fun h => hsrc (mem_below.1 h).2)]

def Op.Touches (S : List N → Prop) : Op N C → Prop
  | .mkdir p => S p
  | .write p _ => S p
  | .delete p => S p
  | .rename src dst => (∀ p, src <+: p → S p) ∧ ∀ p, dst <+: p → S p

omit [DecidableEq N] in
theorem Op.Touches.mono {S S' : List N → Prop} {op : Op N C} (h : op.Touches S)
    (hsub : ∀ p, S p → S' p) : op.Touches S' := by
  cases op with
  | mkdir p => exact hsub p h
  | write p c => exact hsub p h
  | delete p => exact hsub p h
  | rename src dst => exact ⟨fun p hp => hsub p (h.1 p hp), fun p hp => hsub p (h.2 p hp)⟩

theorem touches_rmtree (order : DeleteOrder N) (t : Tree N C) (p : List N) :
    ∀ op ∈ rmtree order t p, op.Touches (fun q => p <+: q) := by
  intro op hop
  obtain ⟨q, hq, rfl⟩ := List.mem_map.1 hop
  exact (mem_below.1 ((order.perm _).mem_iff.1 hq)).2

theorem touches_removal (order : DeleteOrder N) (t : Tree N C) (p : List N) :
    ∀ op ∈ (if pathExists t p then rmtree order t p else []), op.Touches (fun q => p <+: q) := by
  split
  · exact touches_rmtree order t p
  · intro op hop
    cases hop

theorem lookup_apply {S : List N → Prop} {op : Op N C} (hop : op.Touches S) (t : Tree N C)
    {q : List N} (hq : ¬S q) : (op.apply t).lookup q = t.lookup q := by
  have hne : ∀ p, S p → q ≠ p := fun p hp h => hq (h ▸ hp)
  cases op with
  | mkdir p =>
    rw [Op.apply]
    split
    · rfl
    · exact AList.lookup_insert_ne (hne p hop)
  | write p c => exact AList.lookup_insert_ne (hne p hop)
  | delete p => exact AList.lookup_erase_ne (hne p hop)
  | rename src dst =>
    rw [Op.apply, lookup_renamed, if_neg (fun h => hq (hop.2 q h.1)),
      if_neg (fun h => hq (hop.1 q h))]

theorem lookup_exec {S : List N → Prop} {ops : List (Op N C)} (hops : ∀ op ∈ ops, op.Touches S)
    (t : Tree N C) {q : List N} (hq : ¬S q) : (exec t ops).lookup q = t.lookup q := by
  induction ops generalizing t with
  | nil => rfl
  | cons op ops ih =>
    rw [exec, List.foldl_cons, ← exec, ih (fun o ho => hops o (List.mem_cons_of_mem _ ho)),
      lookup_apply (hops op List.mem_cons_self) t hq]

theorem lookup_execAll {S : List N → Prop} {phases : List (Phase N C)}
    (hphases : ∀ phase ∈ phases, ∀ t, ∀ op ∈ phase t, op.Touches S) (t : Tree N C) {q : List N}
    (hq : ¬S q) : (execAll phases t).lookup q = t.lookup q := by
  induction phases generalizing t with
  | nil => rfl
  | cons phase rest ih =>
    rw [execAll, ih (fun p hp => hphases p (List.mem_cons_of_mem _ hp)),
      lookup_exec (hphases phase List.mem_cons_self t) t hq]

theorem mem_iff_of_lookup {t t' : Tree N C} {q q' : List N} (h : t'.lookup q' = t.lookup q) :
    q' ∈ t' ↔ q ∈ t := by
  rw [← AList.lookup_isSome, ← AList.lookup_isSome, h]

def Op.Keeps (S : List N → Prop) : Op N C → Prop
  | .mkdir p => S p
  | .write p _ => S p
  | .delete _ => True
  | .rename src dst => ∀ tail, S (src ++ tail) → S (dst ++ tail)

omit [DecidableEq N] in
theorem Op.Touches.keeps {S : List N → Prop} {op : Op N C} (h : op.Touches S) : op.Keeps S := by
  cases op with
  | mkdir p => exact h
  | write p c => exact h
  | delete p => exact trivial
  | rename src dst => exact fun tail _ => h.2 _ (List.prefix_append dst tail)

theorem keeps_rmtree {S : List N → Prop} (order : DeleteOrder N) (t : Tree N C) (p : List N) :
    ∀ op ∈ rmtree order t p, op.Keeps S := by
  intro op hop
  obtain ⟨q, _, rfl⟩ := List.mem_map.1 hop
  exact trivial

theorem keeps_removal {S : List N → Prop} (order : DeleteOrder N) (t : Tree N C) (p : List N) :
    ∀ op ∈ (if pathExists t p then rmtree order t p else []), op.Keeps S := by
  split
  · exact keeps_rmtree order t p
  · intro op hop
    cases hop

theorem forall_mem_apply {S : List N → Prop} {op : Op N C} (hop : op.Keeps S) {t : Tree N C}
    (ht : ∀ p ∈ t, S p) : ∀ p ∈ op.apply t, S p := by
  intro q hq
  cases op with
  | mkdir p =>
    rw [Op.apply] at hq
    split at hq
    · exact ht q hq
    · cases (AList.mem_insert t).1 hq with
      | inl hq => exact hq ▸ hop
      | inr hq => exact ht q hq
  | write p c =>
    cases (AList.mem_insert t).1 hq with
    | inl hq => exact hq ▸ hop
    | inr hq => exact ht q hq
  | delete p => exact ht q (AList.mem_erase.1 hq).2
  | rename src dst =>
    rw [Op.apply, ← AList.lookup_isSome, lookup_renamed] at hq
    by_cases hmoved : dst <+: q ∧ src ++ q.drop dst.length ∈ t
    · obtain ⟨⟨tail, rfl⟩, hmem⟩ := hmoved
      rw [List.drop_left] at hmem
      exact hop tail (ht _ hmem)
    · rw [if_neg hmoved] at hq
      split at hq
      · cases hq
      · exact ht q (AList.lookup_isSome.1 hq)

theorem forall_mem_exec {S : List N → Prop} {ops : List (Op N C)} (hops : ∀ op ∈ ops, op.Keeps S)
    {t : Tree N C} (ht : ∀ p ∈ t, S p) : ∀ p ∈ exec t ops, S p := by
  induction ops generalizing t with
  | nil => exact ht
  | cons op ops ih =>
    exact ih (fun o ho => hops o (List.mem_cons_of_mem _ ho))
      (forall_mem_apply (hops op List.mem_cons_self) ht)

theorem forall_mem_execCut {S : List N → Prop} {phases : List (Phase N C)}
    (hphases : ∀ phase ∈ phases, ∀ t, ∀ op ∈ phase t, op.Keeps S) (k : ℕ) {t : Tree N C}
    (ht : ∀ p ∈ t, S p) : ∀ p ∈ execCut phases k t, S p := by
  induction phases generalizing k t with
  | nil => exact ht
  | cons phase rest ih =>
    have hphase := hphases phase List.mem_cons_self t
    rw [execCut]
    split
    · exact forall_mem_exec (fun op hop => hphase op (List.mem_of_mem_take hop)) ht
    · exact ih (fun p hp => hphases p (List.mem_cons_of_mem _ hp)) _ (forall_mem_exec hphase ht)

/-- From a tree with `P` the program ends in one with `Q`, and a cut keeps `I` exactly if the phase
that is cut allows it. -/
def CrashSpec (Ok : Tree N C → List (Op N C) → ℕ → Prop) (I P Q : Tree N C → Prop)
    (phases : List (Phase N C)) : Prop :=
  ∀ t, P t → Q (execAll phases t) ∧
    ∀ k < callCount phases t, I (execCut phases k t) ↔ CutIn Ok phases k t

section Rules
variable {Ok : Tree N C → List (Op N C) → ℕ → Prop} {I P Q R : Tree N C → Prop}

theorem CrashSpec.nil (h : ∀ t, P t → Q t) : CrashSpec Ok I P Q [] :=
  fun t ht => ⟨h t ht, fun k hk => absurd hk (Nat.not_lt_zero k)⟩

theorem CrashSpec.cons {phase : Phase N C} {rest : List (Phase N C)}
    (hphase : ∀ t, P t → R (exec t (phase t)) ∧
      ∀ k < (phase t).length, I (exec t ((phase t).take k)) ↔ Ok t (phase t) k)
    (hrest : CrashSpec Ok I R Q rest) : CrashSpec Ok I P Q (phase :: rest) := by
  intro t ht
  obtain ⟨hR, hcut⟩ := hphase t ht
  obtain ⟨hQ, hcutRest⟩ := hrest _ hR
  refine ⟨hQ, ?_⟩
  intro k hk
  rw [execCut, CutIn]
  by_cases hfirst : k < (phase t).length
  · rw [if_pos hfirst, if_pos hfirst]
    exact hcut k hfirst
  · rw [if_neg hfirst, if_neg hfirst]
    apply hcutRest
    rw [callCount] at hk
    omega

end Rules

theorem execAll_append (ps qs : List (Phase N C)) (t : Tree N C) :
    execAll (ps ++ qs) t = execAll qs (execAll ps t) := by
  induction ps generalizing t with
  | nil => rfl
  | cons p ps ih => exact ih _

theorem execCut_of_lt {ps : List (Phase N C)} {k : ℕ} {t : Tree N C} (h : k < callCount ps t)
    (qs : List (Phase N C)) : execCut (ps ++ qs) k t = execCut ps k t := by
  induction ps generalizing k t with
  | nil => exact absurd h (Nat.not_lt_zero k)
  | cons p ps ih =>
    rw [callCount] at h
    rw [List.cons_append, execCut, execCut]
    split
    · rfl
    · exact ih (by omega)

theorem execCut_of_le {ps : List (Phase N C)} {k : ℕ} {t : Tree N C} (h : callCount ps t ≤ k)
    (qs : List (Phase N C)) :
    execCut (ps ++ qs) k t = execCut qs (k - callCount ps t) (execAll ps t) := by
  induction ps generalizing k t with
  | nil => rfl
  | cons p ps ih =>
    rw [callCount] at h
    rw [List.cons_append, execCut, if_neg (by omega), ih (by omega), callCount, execAll,
      Nat.sub_sub]

theorem cutIn_of_lt {Ok : Tree N C → List (Op N C) → ℕ → Prop} {ps : List (Phase N C)} {k : ℕ}
    {t : Tree N C} (h : k < callCount ps t) (qs : List (Phase N C)) :
    CutIn Ok (ps ++ qs) k t ↔ CutIn Ok ps k t := by
  induction ps generalizing k t with
  | nil => exact absurd h (Nat.not_lt_zero k)
  | cons p ps ih =>
    rw [callCount] at h
    rw [List.cons_append, CutIn, CutIn]
    split
    · rfl
    · exact ih (by omega)

theorem cutIn_of_le {Ok : Tree N C → List (Op N C) → ℕ → Prop} {ps : List (Phase N C)} {k : ℕ}
    {t : Tree N C} (h : callCount ps t ≤ k) (qs : List (Phase N C)) :
    CutIn Ok (ps ++ qs) k t ↔ CutIn Ok qs (k - callCount ps t) (execAll ps t) := by
  induction ps generalizing k t with
  | nil => rfl
  | cons p ps ih =>
    rw [callCount] at h
    rw [List.cons_append, CutIn, if_neg (by omega), ih (by omega), callCount, execAll, Nat.sub_sub]

theorem execCut_of_ge {ps : List (Phase N C)} {k : ℕ} {t : Tree N C} (h : callCount ps t ≤ k) :
    execCut ps k t = execAll ps t := by
  have hcut := execCut_of_le h []
  rwa [List.append_nil] at hcut

theorem forall_mem_execAll {S : List N → Prop} {phases : List (Phase N C)}
    (hphases : ∀ phase ∈ phases, ∀ t, ∀ op ∈ phase t, op.Keeps S) {t : Tree N C}
    (ht : ∀ p ∈ t, S p) : ∀ p ∈ execAll phases t, S p := by
  rw [← execCut_of_ge (Nat.le_refl (callCount phases t))]
  exact forall_mem_execCut hphases _ ht

theorem cutIn_of_ge {Ok : Tree N C → List (Op N C) → ℕ → Prop} {ps : List (Phase N C)} {k : ℕ}
    {t : Tree N C} (h : callCount ps t ≤ k) : CutIn Ok ps k t := by
  have hcut : CutIn Ok (ps ++ []) k t ↔ CutIn Ok [] (k - callCount ps t) (execAll ps t) :=
    cutIn_of_le h []
  rw [List.append_nil] at hcut
  exact hcut.2 trivial

end Slakshna.FileTree

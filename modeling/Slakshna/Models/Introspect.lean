import Mathlib.Data.Char
import Mathlib.Data.List.Infix
import Mathlib.Data.List.Lex
import Slakshna.Lib.Lowest
import Slakshna.Lib.NamedTree

/-! What introspection finds in a module tree: the experts of a mixture and the routers beside them.
A module is known by its path in the tree; `lower` is Python's `str.lower`. -/
namespace Slakshna.Introspect
open NamedTree

structure Attr where
  text : List Char
  nonempty : text ≠ []
  dotless : '.' ∉ text
  deriving DecidableEq

abbrev ModulePath := List Attr

structure ModuleInfo where
  cls : ℕ
  isModuleList : Bool
  isLinear : Bool
  parameters : ℕ

abbrev Module := Entry Attr ModuleInfo

abbrev Model := Tree Attr ModuleInfo

def dotted (p : ModulePath) : List Char := ['.'].intercalate (p.map Attr.text)

def hasParameters (m : Module) : Bool :=
  decide (0 < m.value.parameters) || m.below.preorder.any (fun d => decide (0 < d.value.parameters))

structure ModelProfile where
  isMoe : Bool
  numExperts : ℤ
  numSharedExperts : ℤ
  expertsPerToken : ℤ
  expertModuleCls : Option ℕ
  expertModules : List ModulePath
  routerModuleNames : List (List Char)
  loraTargets : List (List Char)
  modelDtype : ℕ

def expertLeafNames : List (List Char) :=
  ["experts".toList, "local_experts".toList, "routed_experts".toList]

def sharedExpertHints : List (List Char) := ["shared_expert".toList, "shared_experts".toList]

def routerLeafHints : List (List Char) :=
  ["gate".toList, "router".toList, "switch".toList, "gating".toList]

def projectionSuffixes : List (List Char) :=
  ["_proj".toList, "_projection".toList, "_linear".toList, "_in".toList, "_out".toList]

def looksLikeProjection (leafNameLower : List Char) : Bool :=
  projectionSuffixes.any (fun s => decide (s <:+ leafNameLower))

def looksLikeRouter (leafNameLower : List Char) : Bool :=
  if looksLikeProjection leafNameLower then false
  else routerLeafHints.any (fun hint => decide (hint <:+: leafNameLower))

def looksShared (leafNameLower : List Char) : Bool :=
  sharedExpertHints.any (fun hint => decide (hint <:+: leafNameLower))

/-- `name.split(".")[-1]` -/
def shortName (name : List Char) : List Char := (name.splitOn '.').getLastD []

/-- `name.split(".")[-1].lower() if name else ""` -/
def leaf (lower : List Char → List Char) (name : List Char) : List Char :=
  if name = [] then [] else lower (shortName name)

/-- `".".join(name.split(".")[:-1])` -/
def parentName (name : List Char) : List Char := ['.'].intercalate (name.splitOn '.').dropLast

def childPaths (m : Module) : List ModulePath := m.children.map Entry.path

structure Found where
  expertCls : Option ℕ
  experts : List ModulePath
  parents : List (List Char)

def appendNew (l : List ModulePath) (p : ModulePath) : List ModulePath :=
  if l.contains p then l else l ++ [p]

def isExpertList (lower : List Char → List Char) (m : Module) : Bool :=
  expertLeafNames.contains (leaf lower (dotted m.path)) && m.value.isModuleList &&
    decide (2 ≤ m.children.length)

def expertStep (lower : List Char → List Char) (s : Found) (m : Module) : Found :=
  if isExpertList lower m then
    ⟨s.expertCls.or (m.children.head?.map (fun c => c.value.cls)), s.experts ++ childPaths m,
      s.parents ++ [parentName (dotted m.path)]⟩
  else s

def sharedStep (lower : List Char → List Char) (s : Found) (m : Module) : Found :=
  if looksShared (leaf lower (dotted m.path)) then
    if m.value.isModuleList then
      ⟨s.expertCls, (childPaths m).foldl appendNew s.experts,
        s.parents ++ [parentName (dotted m.path)]⟩
    else if hasParameters m && !s.experts.contains m.path then
      ⟨s.expertCls, s.experts ++ [m.path], s.parents ++ [parentName (dotted m.path)]⟩
    else s
  else s

def isRouter (lower : List Char → List Char) (parents : List (List Char)) (m : Module) : Bool :=
  decide (dotted m.path ≠ []) && parents.contains (parentName (dotted m.path)) &&
    looksLikeRouter (leaf lower (dotted m.path)) && hasParameters m

def walkExperts (lower : List Char → List Char) (model : Model) : Found :=
  model.entries.foldl (sharedStep lower) (model.entries.foldl (expertStep lower) ⟨none, [], []⟩)

def findMoeComponents (lower : List Char → List Char) (model : Model) :
    Option ℕ × List ModulePath × List (List Char) :=
  let found := walkExperts lower model
  (found.expertCls, found.experts,
    (model.entries.filter (isRouter lower found.parents)).map (fun m => dotted m.path))

def namedModules (m : Module) : List Module := ⟨[], m.value, m.below⟩ :: m.below.preorder

def findLoraTargets (model : Model) (decoderCls : Option ℕ) (routerNames : List (List Char)) :
    List (List Char) :=
  match decoderCls with
  | none => []
  | some cls =>
    match model.entries.find? (fun m => decide (m.value.cls = cls)) with
    | none => []
    | some layer =>
      let routerLeafNames := (routerNames.filter (fun rn => decide (rn ≠ []))).map shortName
      let linears := (namedModules layer).filter (fun m => m.value.isLinear)
      let names := (linears.map (fun m => shortName (dotted m.path))).filter
        (fun name => !routerLeafNames.contains name)
      Lowest.sortBy (fun name => name) names.dedup

def introspectModules (lower : List Char → List Char) (profile : ModelProfile)
    (numHiddenLayers : ℤ) (decoderCls : Option ℕ) (model : Model) : ModelProfile :=
  let found := findMoeComponents lower model
  let profile := if found.2.1 = [] then profile else
    { profile with
      isMoe := true
      expertModuleCls := found.1
      expertModules := found.2.1
      routerModuleNames := found.2.2
      numExperts := if profile.numExperts = 0 then found.2.1.length / max numHiddenLayers 1
        else profile.numExperts }
  { profile with loraTargets := findLoraTargets model decoderCls profile.routerModuleNames }

def Consistent (lower : List Char → List Char) (model : Model) : Prop :=
  (findMoeComponents lower model).2.1.Nodup ∧
    ∀ p ∈ (findMoeComponents lower model).2.1, dotted p ∉ (findMoeComponents lower model).2.2

theorem Attr.text_injective : Function.Injective Attr.text := by
  rintro ⟨a, _, _⟩ ⟨b, _, _⟩ h
  simpa using h

theorem splitOn_dotted {p : ModulePath} (hp : p ≠ []) :
    (dotted p).splitOn '.' = p.map Attr.text := by
  apply List.splitOn_intercalate
  · intro l hl
    obtain ⟨a, _, rfl⟩ := List.mem_map.1 hl
    exact a.dotless
  · simpa using hp

theorem dotted_eq_nil_iff {p : ModulePath} : dotted p = [] ↔ p = [] := by
  constructor
  · intro h
    by_contra hp
    have hsplit := splitOn_dotted hp
    rw [h] at hsplit
    cases p with
    | nil => exact hp rfl
    | cons a q => exact a.nonempty (List.cons.inj hsplit).1.symm
  · rintro rfl
    rfl

theorem dotted_injective : Function.Injective dotted := by
  intro p q h
  by_cases hp : p = []
  · rw [hp] at h
    rw [hp, dotted_eq_nil_iff.1 h.symm]
  · have hq : q ≠ [] := fun hq => hp (dotted_eq_nil_iff.1 (h.trans (dotted_eq_nil_iff.2 hq)))
    have hsplit := congrArg (List.splitOn '.') h
    rw [splitOn_dotted hp, splitOn_dotted hq] at hsplit
    exact List.map_injective_iff.2 Attr.text_injective hsplit

theorem leaf_root (lower : List Char → List Char) : leaf lower (dotted []) = [] := rfl

theorem parentName_dotted (p : ModulePath) (a : Attr) : parentName (dotted (p ++ [a])) = dotted p := by
  rw [parentName, splitOn_dotted (by simp), List.map_append, List.map_singleton,
    List.dropLast_concat, dotted]

def sharedList (lower : List Char → List Char) (m : Module) : Bool :=
  looksShared (leaf lower (dotted m.path)) && m.value.isModuleList

def holdsExperts (lower : List Char → List Char) (m : Module) : Bool :=
  isExpertList lower m || sharedList lower m

def sharedSingle (lower : List Char → List Char) (m : Module) : Bool :=
  looksShared (leaf lower (dotted m.path)) && !m.value.isModuleList && hasParameters m

def routerLike (lower : List Char → List Char) (m : Module) : Bool :=
  looksLikeRouter (leaf lower (dotted m.path)) && hasParameters m

def Inside (lower : List Char → List Char) (model : Model) (m : Module) : Prop :=
  ∃ c ∈ model.entries, holdsExperts lower c ∧ m ∈ c.children

variable {lower : List Char → List Char} {model : Model} {m c : Module}

theorem mem_appendNew {l : List ModulePath} {p q : ModulePath} :
    q ∈ appendNew l p ↔ q ∈ l ∨ q = p := by
  rw [appendNew]
  split
  · next hmem =>
    constructor
    · exact Or.inl
    · rintro (hq | rfl)
      · exact hq
      · exact List.contains_iff_mem.1 hmem
  · rw [List.mem_append, List.mem_singleton]

theorem nodup_appendNew {l : List ModulePath} (h : l.Nodup) (p : ModulePath) :
    (appendNew l p).Nodup := by
  rw [appendNew]
  split
  · exact h
  · next hmem =>
    rw [← List.concat_eq_append]
    exact h.concat (fun hp => hmem (List.contains_iff_mem.2 hp))

theorem foldl_appendNew {l : List ModulePath} (h : l.Nodup) (ps : List ModulePath) :
    (ps.foldl appendNew l).Nodup ∧ ∀ q, q ∈ ps.foldl appendNew l ↔ q ∈ l ∨ q ∈ ps := by
  induction ps generalizing l with
  | nil => simp [h]
  | cons p ps ih =>
    obtain ⟨hnodup, hmem⟩ := ih (nodup_appendNew h p)
    refine ⟨hnodup, ?_⟩
    intro q
    rw [List.foldl_cons, hmem, mem_appendNew, List.mem_cons, or_assoc]

variable (lower) in
theorem foldl_expertStep (l : List Module) (s : Found) :
    (l.foldl (expertStep lower) s).experts =
        s.experts ++ (l.filter (isExpertList lower)).flatMap childPaths ∧
      (l.foldl (expertStep lower) s).parents = s.parents ++
        (l.filter (isExpertList lower)).map (fun m => parentName (dotted m.path)) := by
  induction l generalizing s with
  | nil => simp
  | cons m l ih =>
    rw [List.foldl_cons, (ih _).1, (ih _).2]
    by_cases hm : isExpertList lower m = true <;> simp [expertStep, hm]

theorem nodup_listed : ((model.entries.filter (isExpertList lower)).flatMap childPaths).Nodup := by
  rw [List.nodup_flatMap]
  constructor
  · intro c hc
    exact Tree.nodup_children (List.mem_filter.1 hc).1
  · apply (model.pairwise_entries.sublist List.filter_sublist).imp
    intro d e hnot p hd he
    obtain ⟨x, hx, rfl⟩ := List.mem_map.1 hd
    obtain ⟨y, hy, heq⟩ := List.mem_map.1 he
    obtain ⟨n, hn⟩ := Tree.path_of_child hx
    obtain ⟨k, hk⟩ := Tree.path_of_child hy
    -- a path is one name longer than that of the parent
    have hpath : e.path = d.path := (List.append_inj' (hk.symm.trans (heq.trans hn)) rfl).1
    exact hnot (hpath ▸ List.prefix_rfl)

structure Gathered (lower : List Char → List Char) (model : Model) (xs : List Module) (s : Found) :
    Prop where
  nodup : s.experts.Nodup
  experts : ∀ p, p ∈ s.experts ↔
    (∃ c ∈ model.entries, isExpertList lower c ∧ p ∈ childPaths c) ∨
    ∃ c ∈ xs, sharedList lower c ∧ p ∈ childPaths c ∨ sharedSingle lower c ∧ p = c.path
  parents : ∀ q, q ∈ s.parents ↔
    (∃ c ∈ model.entries, isExpertList lower c ∧ q = parentName (dotted c.path)) ∨
    ∃ c ∈ xs, (sharedList lower c ∨ sharedSingle lower c ∧ ¬Inside lower model c) ∧
      q = parentName (dotted c.path)

theorem Gathered.start : Gathered lower model []
    (model.entries.foldl (expertStep lower) ⟨none, [], []⟩) := by
  obtain ⟨hexperts, hparents⟩ := foldl_expertStep lower model.entries ⟨none, [], []⟩
  constructor
  · rw [hexperts]
    exact nodup_listed
  · intro p
    rw [hexperts]
    simp [and_assoc]
  · intro q
    rw [hparents]
    simp [and_assoc, eq_comm (a := q)]

theorem mem_childPaths (hm : m ∈ model.entries) (hc : c ∈ model.entries) :
    m.path ∈ childPaths c ↔ m ∈ c.children := by
  constructor
  · intro h
    obtain ⟨d, hd, hpath⟩ := List.mem_map.1 h
    rwa [← Tree.eq_of_path (Tree.mem_children hc hd) hm hpath]
  · exact List.mem_map_of_mem

theorem Gathered.mem_iff_inside {xs ys : List Module} {s : Found}
    (h : Gathered lower model xs s) (hentries : model.entries = xs ++ m :: ys) :
    m.path ∈ s.experts ↔ Inside lower model m := by
  have hm : m ∈ model.entries := by simp [hentries]
  have hmem : ∀ c ∈ xs, c ∈ model.entries := by
    intro c hc
    rw [hentries]
    exact List.mem_append_left _ hc
  rw [h.experts]
  constructor
  · rintro (⟨c, hc, hlist, hchild⟩ | ⟨c, hc, ⟨hlist, hchild⟩ | ⟨_, hpath⟩⟩)
    · exact ⟨c, hc, by simp [holdsExperts, hlist], (mem_childPaths hm hc).1 hchild⟩
    · exact ⟨c, hmem c hc, by simp [holdsExperts, hlist], (mem_childPaths hm (hmem c hc)).1 hchild⟩
    · -- the walk has not been here before
      have hnot := model.pairwise_entries
      rw [hentries, List.pairwise_append] at hnot
      exact absurd (hpath ▸ List.prefix_rfl) (hnot.2.2 c hc m List.mem_cons_self)
  · rintro ⟨c, hc, hholds, hchild⟩
    rw [holdsExperts, Bool.or_eq_true] at hholds
    cases hholds with
    | inl hlist => exact Or.inl ⟨c, hc, hlist, List.mem_map_of_mem hchild⟩
    | inr hshared =>
      exact Or.inr ⟨c, Tree.parent_before hentries hc hchild,
        Or.inl ⟨hshared, List.mem_map_of_mem hchild⟩⟩

variable (lower) in
theorem sharedStep_spec {s : Found} (h : s.experts.Nodup) (m : Module) :
    (sharedStep lower s m).experts.Nodup ∧
    (∀ p, p ∈ (sharedStep lower s m).experts ↔ p ∈ s.experts ∨
      (sharedList lower m ∧ p ∈ childPaths m ∨ sharedSingle lower m ∧ p = m.path)) ∧
    ∀ q, q ∈ (sharedStep lower s m).parents ↔ q ∈ s.parents ∨
      (sharedList lower m ∨ sharedSingle lower m ∧ m.path ∉ s.experts) ∧
        q = parentName (dotted m.path) := by
  rw [sharedStep]
  by_cases hshared : looksShared (leaf lower (dotted m.path)) = true
  · rw [if_pos hshared]
    by_cases hlist : m.value.isModuleList = true
    · rw [if_pos hlist]
      obtain ⟨hnodup, hmem⟩ := foldl_appendNew h (childPaths m)
      refine ⟨hnodup, ?_, ?_⟩
      · intro p
        simp [hmem, sharedList, sharedSingle, hshared, hlist]
      · intro q
        simp [sharedList, sharedSingle, hshared, hlist]
    · rw [if_neg hlist]
      by_cases hnew : hasParameters m = true ∧ m.path ∉ s.experts
      · rw [if_pos (by simp [hnew])]
        refine ⟨?_, ?_, ?_⟩
        · rw [← List.concat_eq_append]
          exact h.concat hnew.2
        · intro p
          simp [sharedList, sharedSingle, hshared, hlist, hnew]
        · intro q
          simp [sharedList, sharedSingle, hshared, hlist, hnew]
      · rw [if_neg (by simpa using hnew)]
        -- no parameters, or an expert already
        have hold : sharedSingle lower m = true → m.path ∈ s.experts := by
          intro hsingle
          by_contra hnot
          exact hnew ⟨(Bool.and_eq_true_iff.1 hsingle).2, hnot⟩
        have hnone : ¬sharedList lower m = true := by simp [sharedList, hlist]
        refine ⟨h, ?_, ?_⟩
        · intro p
          refine ⟨Or.inl, ?_⟩
          rintro (hp | ⟨hlist', -⟩ | ⟨hsingle, rfl⟩)
          · exact hp
          · exact absurd hlist' hnone
          · exact hold hsingle
        · intro q
          refine ⟨Or.inl, ?_⟩
          rintro (hq | ⟨hlist' | ⟨hsingle, hnot⟩, -⟩)
          · exact hq
          · exact absurd hlist' hnone
          · exact absurd (hold hsingle) hnot
  · rw [if_neg hshared]
    refine ⟨h, ?_, ?_⟩
    · intro p
      simp [sharedList, sharedSingle, hshared]
    · intro q
      simp [sharedList, sharedSingle, hshared]

theorem Gathered.step {xs ys : List Module} {s : Found} (h : Gathered lower model xs s)
    (hentries : model.entries = xs ++ m :: ys) :
    Gathered lower model (xs ++ [m]) (sharedStep lower s m) := by
  have hsplit : ∀ P : Module → Prop, (∃ c ∈ xs ++ [m], P c) ↔ (∃ c ∈ xs, P c) ∨ P m := by
    intro P
    simp [or_and_right, exists_or]
  obtain ⟨hnodup, hexperts, hparents⟩ := sharedStep_spec lower h.nodup m
  refine ⟨hnodup, ?_, ?_⟩
  · intro p
    rw [hexperts, h.experts, hsplit, or_assoc]
  · intro q
    rw [hparents, h.parents, h.mem_iff_inside hentries, hsplit, or_assoc]

theorem Gathered.walk {xs ys : List Module} {s : Found} (h : Gathered lower model xs s)
    (hentries : model.entries = xs ++ ys) :
    Gathered lower model model.entries (ys.foldl (sharedStep lower) s) := by
  induction ys generalizing xs s with
  | nil =>
    rw [List.append_nil] at hentries
    exact hentries ▸ h
  | cons m ys ih => exact ih (h.step hentries) (by rw [hentries, List.append_cons])

variable (lower model) in
theorem gathered : Gathered lower model model.entries (walkExperts lower model) :=
  Gathered.start.walk rfl

theorem mem_experts (hm : m ∈ model.entries) : m.path ∈ (walkExperts lower model).experts ↔
    Inside lower model m ∨ sharedSingle lower m := by
  rw [(gathered lower model).experts]
  constructor
  · rintro (⟨c, hc, hlist, hchild⟩ | ⟨c, hc, ⟨hlist, hchild⟩ | ⟨hsingle, hpath⟩⟩)
    · exact Or.inl ⟨c, hc, by simp [holdsExperts, hlist], (mem_childPaths hm hc).1 hchild⟩
    · exact Or.inl ⟨c, hc, by simp [holdsExperts, hlist], (mem_childPaths hm hc).1 hchild⟩
    · exact Or.inr (Tree.eq_of_path hm hc hpath ▸ hsingle)
  · rintro (⟨c, hc, hholds, hchild⟩ | hsingle)
    · rw [holdsExperts, Bool.or_eq_true] at hholds
      have hpath : m.path ∈ childPaths c := List.mem_map_of_mem hchild
      exact hholds.elim (fun hlist => Or.inl ⟨c, hc, hlist, hpath⟩)
        (fun hshared => Or.inr ⟨c, hc, Or.inl ⟨hshared, hpath⟩⟩)
    · exact Or.inr ⟨m, hm, Or.inr ⟨hsingle, rfl⟩⟩

theorem exists_of_mem_experts {p : ModulePath} (h : p ∈ (walkExperts lower model).experts) :
    ∃ m ∈ model.entries, m.path = p := by
  rw [(gathered lower model).experts] at h
  rcases h with ⟨c, hc, -, hchild⟩ | ⟨c, hc, ⟨-, hchild⟩ | ⟨-, hpath⟩⟩
  · obtain ⟨d, hd, hpath⟩ := List.mem_map.1 hchild
    exact ⟨d, Tree.mem_children hc hd, hpath⟩
  · obtain ⟨d, hd, hpath⟩ := List.mem_map.1 hchild
    exact ⟨d, Tree.mem_children hc hd, hpath⟩
  · exact ⟨c, hc, hpath.symm⟩

def Marks (lower : List Char → List Char) (model : Model) (m : Module) : Prop :=
  holdsExperts lower m ∨ sharedSingle lower m ∧ ¬Inside lower model m

theorem mem_parents {q : List Char} : q ∈ (walkExperts lower model).parents ↔
    ∃ c ∈ model.entries, Marks lower model c ∧ q = parentName (dotted c.path) := by
  rw [(gathered lower model).parents]
  simp only [Marks, holdsExperts, Bool.or_eq_true]
  constructor
  · rintro (⟨c, hc, hlist, hq⟩ | ⟨c, hc, hshared, hq⟩)
    · exact ⟨c, hc, Or.inl (Or.inl hlist), hq⟩
    · exact ⟨c, hc, hshared.imp_left Or.inr, hq⟩
  · rintro ⟨c, hc, (hlist | hshared) | hsingle, hq⟩
    · exact Or.inl ⟨c, hc, hlist, hq⟩
    · exact Or.inr ⟨c, hc, Or.inl hshared, hq⟩
    · exact Or.inr ⟨c, hc, Or.inr hsingle, hq⟩

theorem Marks.path_ne_nil (h : Marks lower model m) : m.path ≠ [] := by
  intro hroot
  have hshared : looksShared (leaf lower (dotted m.path)) = false := by
    rw [hroot, leaf_root]
    decide
  have hexpert : leaf lower (dotted m.path) ∉ expertLeafNames := by
    rw [hroot, leaf_root]
    decide
  simp [Marks, holdsExperts, isExpertList, sharedList, sharedSingle, hshared, hexpert] at h

theorem routerLike_path_ne_nil (h : routerLike lower m) : m.path ≠ [] := by
  intro hroot
  have hlooks : looksLikeRouter (leaf lower (dotted m.path)) = false := by
    rw [hroot, leaf_root]
    decide
  simp [routerLike, hlooks] at h

theorem siblings (hm : m ∈ model.entries) (hc : c ∈ model.entries) (hpath : m.path ≠ [])
    (hpath' : c.path ≠ []) (h : parentName (dotted m.path) = parentName (dotted c.path)) :
    ∃ d ∈ model.entries, m ∈ d.children ∧ c ∈ d.children := by
  have hm' := (List.dropLast_concat_getLast hpath).symm
  have hc' := (List.dropLast_concat_getLast hpath').symm
  rw [hm', hc', parentName_dotted, parentName_dotted] at h
  obtain ⟨d, hd, hdm, hchild⟩ := Tree.exists_parent hm hm'
  obtain ⟨e, he, hec, hchild'⟩ := Tree.exists_parent hc hc'
  obtain rfl := Tree.eq_of_path hd he (by rw [hdm, hec, dotted_injective h])
  exact ⟨d, hd, hchild, hchild'⟩

theorem mem_routers (hm : m ∈ model.entries) : dotted m.path ∈ (findMoeComponents lower model).2.2 ↔
    routerLike lower m ∧ ∃ c ∈ model.entries, Marks lower model c ∧
      ∃ d ∈ model.entries, m ∈ d.children ∧ c ∈ d.children := by
  have hname : dotted m.path ∈ (findMoeComponents lower model).2.2 ↔
      isRouter lower (walkExperts lower model).parents m := by
    rw [findMoeComponents, List.mem_map]
    constructor
    · rintro ⟨d, hd, hpath⟩
      rw [List.mem_filter] at hd
      rw [← Tree.eq_of_path hd.1 hm (dotted_injective hpath)]
      exact hd.2
    · exact fun h => ⟨m, List.mem_filter.2 ⟨hm, h⟩, rfl⟩
  rw [hname]
  constructor
  · intro h
    simp only [isRouter, Bool.and_eq_true, decide_eq_true_eq, List.contains_iff_mem] at h
    obtain ⟨⟨⟨hpath, hparent⟩, hlooks⟩, hparameters⟩ := h
    obtain ⟨c, hc, hmarks, hsame⟩ := mem_parents.1 hparent
    refine ⟨by simp [routerLike, hlooks, hparameters], c, hc, hmarks, ?_⟩
    exact siblings hm hc (fun hroot => hpath (dotted_eq_nil_iff.2 hroot)) hmarks.path_ne_nil hsame
  · rintro ⟨hrouter, c, hc, hmarks, d, hd, hchild, hchild'⟩
    obtain ⟨n, hn⟩ := Tree.path_of_child hchild
    obtain ⟨k, hk⟩ := Tree.path_of_child hchild'
    have hparent : parentName (dotted m.path) ∈ (walkExperts lower model).parents := by
      refine mem_parents.2 ⟨c, hc, hmarks, ?_⟩
      rw [hn, hk, parentName_dotted, parentName_dotted]
    have hpath := mt dotted_eq_nil_iff.1 (routerLike_path_ne_nil hrouter)
    rw [routerLike, Bool.and_eq_true] at hrouter
    simp [isRouter, hpath, hparent, hrouter]

/-- The experts and the routers are kept apart exactly if a module that looks like a router is no
shared expert by its name, unless it is inside a list of experts, and then only where that list
directly holds no other such list. -/
theorem findMoeComponents_consistent_iff (lower : List Char → List Char) (model : Model) :
    Consistent lower model ↔ ∀ m ∈ model.entries, routerLike lower m →
      (sharedSingle lower m → Inside lower model m) ∧
      ∀ c ∈ model.entries, holdsExperts lower c → m ∈ c.children →
        ∀ d ∈ c.children, ¬holdsExperts lower d := by
  constructor
  · rintro ⟨-, hapart⟩ m hm hrouter
    constructor
    · intro hsingle
      by_contra hinside
      obtain ⟨d, hd, -, hchild⟩ := Tree.exists_parent hm
        (List.dropLast_concat_getLast (routerLike_path_ne_nil hrouter)).symm
      exact hapart m.path ((mem_experts hm).2 (Or.inr hsingle))
        ((mem_routers hm).2 ⟨hrouter, m, hm, Or.inr ⟨hsingle, hinside⟩, d, hd, hchild, hchild⟩)
    · intro c hc hholds hchild d hd hholds'
      exact hapart m.path ((mem_experts hm).2 (Or.inl ⟨c, hc, hholds, hchild⟩))
        ((mem_routers hm).2
          ⟨hrouter, d, Tree.mem_children hc hd, Or.inl hholds', c, hc, hchild, hd⟩)
  · intro h
    refine ⟨(gathered lower model).nodup, ?_⟩
    intro p hp hname
    obtain ⟨m, hm, rfl⟩ := exists_of_mem_experts hp
    obtain ⟨hrouter, c, hc, hmarks, d, hd, hchild, hchild'⟩ := (mem_routers hm).1 hname
    obtain ⟨hsingle, hlists⟩ := h m hm hrouter
    obtain ⟨l, hl, hholds, hinside⟩ := ((mem_experts hm).1 hp).elim id hsingle
    -- the list that `m` is inside of is the parent of `c` as well
    obtain rfl : d = l := by
      obtain ⟨n, hn⟩ := Tree.path_of_child hchild
      obtain ⟨k, hk⟩ := Tree.path_of_child hinside
      exact Tree.eq_of_path hd hl (List.append_inj' (hn.symm.trans hk) rfl).1
    cases hmarks with
    | inl hholds' => exact hlists d hd hholds hinside c hchild' hholds'
    | inr hsingle' => exact hsingle'.2 ⟨d, hd, hholds, hchild'⟩

def gateAttr : Attr := ⟨"gate".toList, by decide, by decide⟩

def expertsAttr : Attr := ⟨"experts".toList, by decide, by decide⟩

def sharedExpertAttr : Attr := ⟨"shared_expert".toList, by decide, by decide⟩

def sharedExpertGateAttr : Attr := ⟨"shared_expert_gate".toList, by decide, by decide⟩

def zeroAttr : Attr := ⟨"0".toList, by decide, by decide⟩

def oneAttr : Attr := ⟨"1".toList, by decide, by decide⟩

def linearInfo : ModuleInfo := ⟨0, false, true, 1⟩

def expertInfo : ModuleInfo := ⟨1, false, false, 3⟩

def sharedGateBlock : Model where
  value := ⟨2, false, false, 0⟩
  below := .cons gateAttr linearInfo .nil
    (.cons expertsAttr ⟨3, true, false, 0⟩
      (.cons zeroAttr expertInfo .nil (.cons oneAttr expertInfo .nil .nil))
      (.cons sharedExpertAttr expertInfo .nil
        (.cons sharedExpertGateAttr linearInfo .nil .nil)))
  distinct := by decide +kernel

/-- The gate is sharded as an expert and frozen as a router. -/
theorem sharedGateBlock_inconsistent :
    ¬Consistent (List.map Char.toLower) sharedGateBlock := by
  intro h
  exact h.2 [sharedExpertGateAttr] (by decide +kernel) (by decide +kernel)

end Slakshna.Introspect

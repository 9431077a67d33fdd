import Mathlib.Data.List.Infix

/-! Texts with tags that begin with one mark and do not have it again, such as `<a>` and `</a>`, and
the blocks between an opening and a closing tag, found from left to right. -/
namespace Slakshna.Tags
variable {X : Type*} {mark : X}

structure Tag (X : Type*) (mark : X) where
  tail : List X
  fresh : mark ∉ tail

def Tag.text (g : Tag X mark) : List X := mark :: g.tail

def Tag.Apart (g h : Tag X mark) : Prop := ¬g.text <+: h.text ∧ ¬h.text <+: g.text

/-- No occurrence of the tag begins in `x` when `y` follows. -/
def Tag.Skips (g : Tag X mark) (x y : List X) : Prop := ∀ z, z ≠ [] → z <:+ x → ¬g.text <+: z ++ y

theorem Tag.skips_nil (g : Tag X mark) (y : List X) : g.Skips [] y := by
  intro z hz hsuffix
  exact absurd (List.suffix_nil.1 hsuffix) hz

theorem Tag.skips_cons {g : Tag X mark} {c : X} {x y : List X} :
    g.Skips (c :: x) y ↔ ¬g.text <+: c :: (x ++ y) ∧ g.Skips x y := by
  constructor
  · intro h
    refine ⟨h (c :: x) (List.cons_ne_nil c x) List.suffix_rfl, ?_⟩
    intro z hz hsuffix
    exact h z hz (hsuffix.trans (List.suffix_cons c x))
  · rintro ⟨hhead, htail⟩ z hz hsuffix
    cases List.suffix_cons_iff.1 hsuffix with
    | inl heq => exact heq ▸ hhead
    | inr hsuffix => exact htail z hz hsuffix

theorem Tag.skips_append {g : Tag X mark} {x y z : List X} :
    g.Skips (x ++ y) z ↔ g.Skips x (y ++ z) ∧ g.Skips y z := by
  induction x with
  | nil => simp [g.skips_nil]
  | cons c x ih => rw [List.cons_append, skips_cons, skips_cons, ih, List.append_assoc, and_assoc]

theorem Tag.skips_of_not_mem (g : Tag X mark) {x : List X} (h : mark ∉ x) (y : List X) :
    g.Skips x y := by
  induction x with
  | nil => exact g.skips_nil y
  | cons c x ih =>
    obtain ⟨hc, hx⟩ := not_or.1 (fun hmem => h (List.mem_cons.2 hmem))
    refine skips_cons.2 ⟨?_, ih hx⟩
    intro hfront
    exact hc (List.cons_prefix_cons.1 hfront).1

theorem Tag.Apart.skips {g h : Tag X mark} (hapart : g.Apart h) (y : List X) :
    g.Skips h.text y := by
  refine skips_cons.2 ⟨?_, g.skips_of_not_mem h.fresh y⟩
  intro hfront
  have hself : h.text <+: mark :: (h.tail ++ y) := List.prefix_append h.text y
  cases List.prefix_or_prefix_of_prefix hfront hself with
  | inl hgh => exact hapart.1 hgh
  | inr hhg => exact hapart.2 hhg

theorem Tag.Skips.of_append {g : Tag X mark} {x y z : List X} (h : g.Skips x (y ++ z)) :
    g.Skips x y := by
  intro w hw hsuffix hfront
  apply h w hw hsuffix
  rw [← List.append_assoc]
  exact hfront.trans (List.prefix_append (w ++ y) z)

theorem Tag.skips_before_of_not_mem (g : Tag X mark) {c : X} (hc : c ∉ g.text) (x y : List X) :
    g.Skips x (c :: y) ↔ g.Skips x [] := by
  refine ⟨fun h => Tag.Skips.of_append (by rwa [List.nil_append]), ?_⟩
  intro h z hz hsuffix hfront
  apply h z hz hsuffix
  rw [List.append_nil]
  cases List.prefix_or_prefix_of_prefix hfront (List.prefix_append z (c :: y)) with
  | inl hwithin => exact hwithin
  | inr hover =>
    obtain ⟨w, hw⟩ := hover
    cases w with
    | nil => rw [← hw, List.append_nil]
    | cons d w =>
      rw [← hw, List.prefix_append_right_inj, List.cons_prefix_cons] at hfront
      refine absurd ?_ hc
      rw [← hw, ← hfront.1]
      exact List.mem_append_right z List.mem_cons_self

theorem Tag.skips_of_head {g : Tag X mark} {x : List X} (h : ¬g.text <:+: x) {y : List X}
    (hy : ∀ c ∈ y.head?, c = mark) : g.Skips x y := by
  intro z hz hsuffix hfront
  obtain ⟨c, z, rfl⟩ := List.exists_cons_of_ne_nil hz
  obtain ⟨hc, rest, htail⟩ := List.cons_prefix_cons.1 hfront
  have hwithin : ∀ r, g.tail ++ r = z → False := by
    rintro r rfl
    have hoccurs : g.text <+: c :: (g.tail ++ r) :=
      List.cons_prefix_cons.2 ⟨hc, List.prefix_append g.tail r⟩
    exact h (hoccurs.isInfix.trans hsuffix.isInfix)
  rcases List.append_eq_append_iff.1 htail with ⟨r, hz, -⟩ | ⟨beyond, htext, hy'⟩
  · exact hwithin r hz.symm
  · cases beyond with
    | nil => exact hwithin [] (by simpa using htext)
    | cons d beyond =>
      subst hy'
      have hd : d = mark := hy d rfl
      apply g.fresh
      rw [htext, ← hd]
      simp

theorem Tag.skips_nil_iff {g : Tag X mark} {x : List X} : g.Skips x [] ↔ ¬g.text <:+: x := by
  constructor
  · rintro h ⟨before, behind, rfl⟩
    rw [List.append_assoc] at h
    have hne : g.text ++ behind ≠ [] := by simp [Tag.text]
    exact h (g.text ++ behind) hne (List.suffix_append ..) (by simp)
  · intro h
    exact skips_of_head h (by simp)

variable [DecidableEq X]

def cut (g : Tag X mark) : List X → Option (List X × List X)
  | [] => none
  | c :: s =>
    if g.text <+: c :: s then some ([], s.drop g.tail.length)
    else (cut g s).map (fun p => (c :: p.1, p.2))

theorem cut_text (g : Tag X mark) (y : List X) : cut g (g.text ++ y) = some ([], y) := by
  have hfirst : g.text <+: mark :: (g.tail ++ y) := List.prefix_append g.text y
  rw [Tag.text, List.cons_append, cut, if_pos hfirst, List.drop_left]

theorem cut_append {g : Tag X mark} {x y : List X} (h : g.Skips x y) :
    cut g (x ++ y) = (cut g y).map (fun p => (x ++ p.1, p.2)) := by
  induction x with
  | nil => simp
  | cons c x ih =>
    obtain ⟨hhead, htail⟩ := Tag.skips_cons.1 h
    rw [List.cons_append, cut, if_neg hhead, ih htail, Option.map_map]
    rfl

theorem cut_eq_none_iff {g : Tag X mark} {s : List X} : cut g s = none ↔ ¬g.text <:+: s := by
  induction s with
  | nil => simp [cut, Tag.text]
  | cons c s ih =>
    rw [cut, List.infix_cons_iff]
    by_cases hfirst : g.text <+: c :: s
    · simp [hfirst]
    · simp [hfirst, ih]

theorem cut_eq_some_iff {g : Tag X mark} {s before behind : List X} :
    cut g s = some (before, behind) ↔ s = before ++ (g.text ++ behind) ∧ ¬g.text <:+: before := by
  constructor
  · intro h
    induction s generalizing before with
    | nil => cases h
    | cons c s ih =>
      rw [cut] at h
      split at h
      · next hfirst =>
        obtain ⟨rest, hrest⟩ := hfirst
        cases h
        refine ⟨?_, by simp [Tag.text]⟩
        have hs : g.tail ++ rest = s := (List.cons.inj hrest).2
        rw [← hrest, ← hs, List.drop_left]
        rfl
      · next hfirst =>
        obtain ⟨p, hp, heq⟩ := Option.map_eq_some_iff.1 h
        obtain ⟨p1, p2⟩ := p
        cases heq
        obtain ⟨hs, hfree⟩ := ih hp
        refine ⟨by rw [hs]; rfl, ?_⟩
        rw [List.infix_cons_iff]
        rintro (hfront | hmeets)
        · apply hfirst
          rw [hs]
          exact hfront.trans (List.prefix_append (c :: p1) _)
        · exact hfree hmeets
  · rintro ⟨rfl, hfree⟩
    rw [cut_append (Tag.skips_of_head hfree (by simp [Tag.text])), cut_text]
    simp

structure Delims (X : Type*) (mark : X) where
  opening : Tag X mark
  closing : Tag X mark

variable {p : Delims X mark}

def findBlock (p : Delims X mark) (s : List X) : Option (List X × List X × List X) :=
  match cut p.opening s with
  | none => none
  | some (before, s) => (cut p.closing s).map (fun q => (before, q.1, q.2))

/-- The blocks one after the other, each with what is before it, and what is behind the last. Every
block takes at least one letter off `fuel`. -/
def splitFrom (p : Delims X mark) : ℕ → List X → List (List X × List X) × List X
  | 0, s => ([], s)
  | fuel + 1, s =>
    match findBlock p s with
    | none => ([], s)
    | some (before, content, behind) =>
      let later := splitFrom p fuel behind
      ((before, content) :: later.1, later.2)

def split (p : Delims X mark) (s : List X) : List (List X × List X) × List X :=
  splitFrom p s.length s

def contents (p : Delims X mark) (s : List X) : List (List X) := (split p s).1.map Prod.snd

def removed (p : Delims X mark) (s : List X) : List X :=
  (split p s).1.flatMap Prod.fst ++ (split p s).2

def assemble (p : Delims X mark) : List (List X × List X) → List X → List X
  | [], rest => rest
  | (before, content) :: segments, rest => before ++
    (p.opening.text ++ (content ++ (p.closing.text ++ assemble p segments rest)))

/-- No block begins earlier or ends earlier, and none is left. -/
structure Decomposed (p : Delims X mark) (segments : List (List X × List X)) (rest : List X) :
    Prop where
  gaps : ∀ s ∈ segments, ¬p.opening.text <:+: s.1
  contents : ∀ s ∈ segments, ¬p.closing.text <:+: s.2
  rest : findBlock p rest = none

theorem findBlock_eq_some_iff {s before content behind : List X} :
    findBlock p s = some (before, content, behind) ↔
      s = before ++ (p.opening.text ++ (content ++ (p.closing.text ++ behind))) ∧
        ¬p.opening.text <:+: before ∧ ¬p.closing.text <:+: content := by
  rw [findBlock]
  constructor
  · intro h
    cases hopen : cut p.opening s with
    | none =>
      rw [hopen] at h
      cases h
    | some q =>
      rw [hopen] at h
      obtain ⟨⟨q1, q2⟩, hclose, heq⟩ := Option.map_eq_some_iff.1 h
      cases heq
      obtain ⟨hs, hbefore⟩ := cut_eq_some_iff.1 hopen
      obtain ⟨hq, hcontent⟩ := cut_eq_some_iff.1 hclose
      exact ⟨by rw [hs, hq], hbefore, hcontent⟩
  · rintro ⟨hs, hbefore, hcontent⟩
    rw [cut_eq_some_iff.2 ⟨hs, hbefore⟩]
    dsimp only
    rw [cut_eq_some_iff.2 ⟨rfl, hcontent⟩]
    rfl

theorem findBlock_cons {segments : List (List X × List X)} {rest before content : List X}
    (h : Decomposed p ((before, content) :: segments) rest) :
    findBlock p (assemble p ((before, content) :: segments) rest) =
      some (before, content, assemble p segments rest) :=
  findBlock_eq_some_iff.2 ⟨rfl, h.gaps _ List.mem_cons_self, h.contents _ List.mem_cons_self⟩

theorem Decomposed.tail {segments : List (List X × List X)} {s : List X × List X} {rest : List X}
    (h : Decomposed p (s :: segments) rest) : Decomposed p segments rest :=
  ⟨fun q hq => h.gaps q (List.mem_cons_of_mem s hq),
    fun q hq => h.contents q (List.mem_cons_of_mem s hq), h.rest⟩

theorem splitFrom_assemble {segments : List (List X × List X)} {rest : List X}
    (h : Decomposed p segments rest) {fuel : ℕ} (hfuel : (assemble p segments rest).length ≤ fuel) :
    splitFrom p fuel (assemble p segments rest) = (segments, rest) := by
  induction segments generalizing fuel with
  | nil =>
    cases fuel with
    | zero => rfl
    | succ fuel => rw [splitFrom, assemble, h.rest]
  | cons s segments ih =>
    obtain ⟨before, content⟩ := s
    cases fuel with
    | zero =>
      exfalso
      simp [assemble, Tag.text] at hfuel
    | succ fuel =>
      rw [splitFrom, findBlock_cons h]
      dsimp only
      rw [ih h.tail]
      simp only [assemble, Tag.text, List.length_append, List.length_cons] at hfuel
      omega

theorem splitFrom_spec (p : Delims X mark) {fuel : ℕ} {s : List X} (hfuel : s.length ≤ fuel) :
    s = assemble p (splitFrom p fuel s).1 (splitFrom p fuel s).2 ∧
      Decomposed p (splitFrom p fuel s).1 (splitFrom p fuel s).2 := by
  induction fuel generalizing s with
  | zero =>
    have hs : s = [] := List.length_eq_zero_iff.1 (Nat.le_zero.1 hfuel)
    subst hs
    exact ⟨rfl, by simp [splitFrom], by simp [splitFrom], rfl⟩
  | succ fuel ih =>
    rw [splitFrom]
    cases hblock : findBlock p s with
    | none => exact ⟨rfl, by simp, by simp, hblock⟩
    | some q =>
      obtain ⟨before, content, behind⟩ := q
      obtain ⟨hs, hbefore, hcontent⟩ := findBlock_eq_some_iff.1 hblock
      have hshorter : behind.length ≤ fuel := by
        have hlen := congrArg List.length hs
        simp only [Tag.text, List.length_append, List.length_cons] at hlen
        omega
      obtain ⟨hbehind, hlater⟩ := ih hshorter
      refine ⟨?_, ?_, ?_, hlater.rest⟩
      · rw [assemble, ← hbehind]
        exact hs
      · exact List.forall_mem_cons.2 ⟨hbefore, hlater.gaps⟩
      · exact List.forall_mem_cons.2 ⟨hcontent, hlater.contents⟩

theorem split_eq_iff {s rest : List X} {segments : List (List X × List X)} :
    split p s = (segments, rest) ↔ s = assemble p segments rest ∧ Decomposed p segments rest := by
  constructor
  · intro h
    have hspec := splitFrom_spec p (le_refl s.length)
    rw [split] at h
    rwa [h] at hspec
  · rintro ⟨rfl, h⟩
    exact splitFrom_assemble h le_rfl

/-- What is left of a text once the blocks that it is made of are taken out. -/
def Without (p : Delims X mark) (s left : List X) : Prop :=
  ∃ segments rest, s = assemble p segments rest ∧ Decomposed p segments rest ∧
    left = segments.flatMap Prod.fst ++ rest

theorem without_iff {s left : List X} : Without p s left ↔ left = removed p s := by
  constructor
  · rintro ⟨segments, rest, hs, hdecomposed, rfl⟩
    rw [removed, split_eq_iff.2 ⟨hs, hdecomposed⟩]
  · rintro rfl
    exact ⟨_, _, (split_eq_iff.1 rfl).1, (split_eq_iff.1 rfl).2, rfl⟩

theorem split_spec (p : Delims X mark) (s : List X) :
    s = assemble p (split p s).1 (split p s).2 ∧ Decomposed p (split p s).1 (split p s).2 :=
  split_eq_iff.1 rfl

@[simp] theorem split_nil (p : Delims X mark) : split p [] = ([], []) := rfl

theorem split_block {content : List X} (h : ¬p.closing.text <:+: content) (s : List X) :
    split p (p.opening.text ++ (content ++ (p.closing.text ++ s))) =
      (([], content) :: (split p s).1, (split p s).2) := by
  obtain ⟨hs, hdecomposed⟩ := split_spec p s
  refine split_eq_iff.2 ⟨?_, ?_, ?_, hdecomposed.rest⟩
  · rw [assemble, ← hs]
    rfl
  · exact List.forall_mem_cons.2 ⟨by simp [Tag.text], hdecomposed.gaps⟩
  · exact List.forall_mem_cons.2 ⟨h, hdecomposed.contents⟩

theorem contents_block {content : List X} (h : ¬p.closing.text <:+: content) (s : List X) :
    contents p (p.opening.text ++ (content ++ (p.closing.text ++ s))) = content :: contents p s := by
  rw [contents, split_block h]
  rfl

theorem removed_block {content : List X} (h : ¬p.closing.text <:+: content) (s : List X) :
    removed p (p.opening.text ++ (content ++ (p.closing.text ++ s))) = removed p s := by
  rw [removed, split_block h]
  rfl

theorem findBlock_skip {x y : List X} (h : p.opening.Skips x y) :
    findBlock p (x ++ y) = (findBlock p y).map (fun q => (x ++ q.1, q.2)) := by
  rw [findBlock, findBlock, cut_append h]
  cases cut p.opening y with
  | none => rfl
  | some q => simp [Option.map_map, Function.comp_def]

def prepend (x : List X) : List (List X × List X) × List X → List (List X × List X) × List X
  | ([], rest) => ([], x ++ rest)
  | ((before, content) :: segments, rest) => ((x ++ before, content) :: segments, rest)

theorem split_prepend {x y : List X} (h : p.opening.Skips x y) :
    split p (x ++ y) = prepend x (split p y) := by
  obtain ⟨hy, hdecomposed⟩ := split_spec p y
  match hsplit : split p y with
  | ([], rest) =>
    rw [hsplit] at hy hdecomposed
    have hrest : findBlock p (x ++ y) = none := by
      rw [findBlock_skip h, hy, assemble, hdecomposed.rest]
      rfl
    refine split_eq_iff.2 ⟨?_, by simp, by simp, ?_⟩
    · rw [hy]
      rfl
    · rw [hy] at hrest
      exact hrest
  | ((before, content) :: segments, rest) =>
    rw [hsplit] at hy hdecomposed
    have hgap : ¬p.opening.text <:+: x ++ before := by
      rw [hy, assemble] at h
      have hbefore := Tag.skips_nil_iff.2 (hdecomposed.gaps _ List.mem_cons_self)
      rw [← Tag.skips_nil_iff, Tag.skips_append, List.append_nil]
      exact ⟨h.of_append, hbefore⟩
    have hcontent := hdecomposed.contents (before, content) List.mem_cons_self
    refine split_eq_iff.2 ⟨?_, ?_, ?_, hdecomposed.rest⟩
    · rw [hy]
      simp [assemble]
    · exact List.forall_mem_cons.2 ⟨hgap, hdecomposed.tail.gaps⟩
    · exact List.forall_mem_cons.2 ⟨hcontent, hdecomposed.tail.contents⟩

theorem split_skip {x y : List X} (h : p.opening.Skips x y) :
    contents p (x ++ y) = contents p y ∧ removed p (x ++ y) = x ++ removed p y := by
  rw [contents, contents, removed, removed, split_prepend h]
  match split p y with
  | ([], rest) => exact ⟨rfl, rfl⟩
  | ((before, content) :: segments, rest) => exact ⟨rfl, by simp [prepend]⟩

omit [DecidableEq X] in
theorem assemble_append (segments later : List (List X × List X)) (rest : List X) :
    assemble p (segments ++ later) rest = assemble p segments (assemble p later rest) := by
  induction segments with
  | nil => rfl
  | cons s segments ih => simp [assemble, ih]

omit [DecidableEq X] in
theorem assemble_rest (segments : List (List X × List X)) (rest y : List X) :
    assemble p segments rest ++ y = assemble p segments (rest ++ y) := by
  induction segments with
  | nil => rfl
  | cons s segments ih => simp [assemble, ih]

theorem split_append_rest (x y : List X) :
    split p (x ++ y) = ((split p x).1 ++ (split p ((split p x).2 ++ y)).1,
      (split p ((split p x).2 ++ y)).2) := by
  obtain ⟨hx, hfirst⟩ := split_spec p x
  obtain ⟨hlater, hsecond⟩ := split_spec p ((split p x).2 ++ y)
  refine split_eq_iff.2 ⟨?_, ?_, ?_, hsecond.rest⟩
  · rw [assemble_append, ← hlater, ← assemble_rest, ← hx]
  · exact List.forall_mem_append.2 ⟨hfirst.gaps, hsecond.gaps⟩
  · exact List.forall_mem_append.2 ⟨hfirst.contents, hsecond.contents⟩

theorem split_append {x y : List X} (hclosed : p.opening.Skips (split p x).2 y) :
    contents p (x ++ y) = contents p x ++ contents p y ∧
      removed p (x ++ y) = removed p x ++ removed p y := by
  obtain ⟨hinside, houtside⟩ := split_skip hclosed
  rw [contents] at hinside
  rw [removed] at houtside
  rw [contents, removed, split_append_rest]
  constructor
  · rw [List.map_append, hinside]
    rfl
  · rw [List.flatMap_append, List.append_assoc, houtside, ← List.append_assoc]
    rfl

def spansFrom (p : Delims X mark) : ℕ → List (List X × List X) → List (ℕ × ℕ)
  | _, [] => []
  | n, (before, content) :: segments =>
    let first := n + before.length
    let last := first + (p.opening.text ++ (content ++ p.closing.text)).length
    (first, last) :: spansFrom p last segments

def spans (p : Delims X mark) (s : List X) : List (ℕ × ℕ) := spansFrom p 0 (split p s).1

omit [DecidableEq X] in
theorem spansFrom_add (n m : ℕ) (segments : List (List X × List X)) :
    spansFrom p (n + m) segments =
      (spansFrom p m segments).map (fun a => (n + a.1, n + a.2)) := by
  induction segments generalizing m with
  | nil => rfl
  | cons s segments ih =>
    simp only [spansFrom, List.map_cons, ← ih, Nat.add_assoc]

omit [DecidableEq X] in
theorem spansFrom_append (n : ℕ) (segments later : List (List X × List X)) :
    spansFrom p n (segments ++ later) =
      spansFrom p n segments ++ spansFrom p (n + (assemble p segments []).length) later := by
  induction segments generalizing n with
  | nil => rfl
  | cons s segments ih =>
    simp only [List.cons_append, spansFrom, ih, assemble, List.length_append, List.cons_append,
      Nat.add_assoc]

omit [DecidableEq X] in
theorem spansFrom_prepend (n : ℕ) (x : List X) (q : List (List X × List X) × List X) :
    spansFrom p n (prepend x q).1 = spansFrom p (n + x.length) q.1 := by
  match q with
  | ([], rest) => rfl
  | ((before, content) :: segments, rest) =>
    simp only [prepend, spansFrom, List.length_append, Nat.add_assoc]

theorem mem_spans_append {x y : List X} (hclosed : p.opening.Skips (split p x).2 y) {a : ℕ × ℕ}
    (ha : a ∈ spans p y) : (x.length + a.1, x.length + a.2) ∈ spans p (x ++ y) := by
  have hlength : (assemble p (split p x).1 []).length + (split p x).2.length = x.length := by
    conv_rhs => rw [(split_spec p x).1]
    rw [← List.length_append, assemble_rest, List.nil_append]
  rw [spans, split_append_rest, split_prepend hclosed, spansFrom_append, spansFrom_prepend,
    Nat.zero_add, hlength, ← Nat.add_zero x.length, spansFrom_add]
  exact List.mem_append_right _ (List.mem_map_of_mem ha)

theorem split_of_not_closing {s : List X} (h : ¬p.closing.text <:+: s) : split p s = ([], s) := by
  refine split_eq_iff.2 ⟨rfl, by simp, by simp, ?_⟩
  rw [findBlock]
  cases hopen : cut p.opening s with
  | none => rfl
  | some q =>
    have hbehind : ¬p.closing.text <:+: q.2 := by
      intro hmeets
      rw [(cut_eq_some_iff.1 hopen).1] at h
      exact h (hmeets.trans ⟨q.1 ++ p.opening.text, [], by simp⟩)
    simp [cut_eq_none_iff.2 hbehind]

theorem spans_of_opening {x y : List X}
    (hclosed : p.opening.Skips (split p x).2 (p.opening.text ++ y)) :
    (¬p.closing.text <:+: y ∧ contents p (x ++ (p.opening.text ++ y)) = contents p x) ∨
      ∃ last, (x.length, last) ∈ spans p (x ++ (p.opening.text ++ y)) ∧
        ∀ z, z <+: y → ¬p.closing.text <:+: z → x.length + (p.opening.text ++ z).length < last := by
  cases hclose : cut p.closing y with
  | none =>
    have hnone : ¬p.closing.text <:+: y := cut_eq_none_iff.1 hclose
    refine .inl ⟨hnone, ?_⟩
    have hlater : findBlock p (p.opening.text ++ y) = none := by
      rw [findBlock, cut_text]
      simp [hclose]
    have hsplit : split p (p.opening.text ++ y) = ([], p.opening.text ++ y) :=
      split_eq_iff.2 ⟨rfl, by simp, by simp, hlater⟩
    rw [(split_append hclosed).1, contents, contents, hsplit, List.map_nil, List.append_nil]
  | some q =>
    obtain ⟨inner, behind⟩ := q
    obtain ⟨rfl, hinner⟩ := cut_eq_some_iff.1 hclose
    refine .inr ⟨x.length + (p.opening.text ++ (inner ++ p.closing.text)).length, ?_, ?_⟩
    · have hfirst : (0, (p.opening.text ++ (inner ++ p.closing.text)).length) ∈
          spans p (p.opening.text ++ (inner ++ (p.closing.text ++ behind))) := by
        rw [spans, split_block hinner]
        simp [spansFrom]
      exact mem_spans_append hclosed hfirst
    · intro z hz hfree
      have hshort : ¬inner ++ p.closing.text <+: z :=
        fun hprefix => hfree ((List.suffix_append _ _).isInfix.trans hprefix.isInfix)
      have hwhole : inner ++ p.closing.text <+: inner ++ (p.closing.text ++ behind) := by
        rw [← List.append_assoc]
        exact List.prefix_append _ _
      have hlt : z.length < (inner ++ p.closing.text).length := by
        by_contra hle
        exact hshort (List.prefix_of_prefix_length_le hwhole hz (not_lt.1 hle))
      rw [List.length_append, List.length_append]
      omega

theorem split_of_not_opening {s : List X} (h : ¬p.opening.text <:+: s) : split p s = ([], s) := by
  refine split_eq_iff.2 ⟨rfl, by simp, by simp, ?_⟩
  rw [findBlock, cut_eq_none_iff.2 h]

structure Fenced (p : Delims X mark) (m : List X) : Prop where
  pos : 0 < m.length
  head : ∀ c ∈ m.head?, c = mark
  skips : ¬p.opening.text <:+: m → ∀ y, p.opening.Skips m y

structure Around (p : Delims X mark) (before m later s : List X) : Prop where
  contents : Tags.contents p s = Tags.contents p before ++ Tags.contents p later
  spans : ∀ a ∈ Tags.spans p later,
    ((before ++ m).length + a.1, (before ++ m).length + a.2) ∈ Tags.spans p s

theorem around_of_opening {before m later x y : List X}
    (hclosed : p.opening.Skips (split p x).2 (p.opening.text ++ y))
    (hmeets : ∀ last, (x.length, last) ∈ spans p (x ++ (p.opening.text ++ y)) →
      (∀ z, z <+: y → ¬p.closing.text <:+: z → x.length + (p.opening.text ++ z).length < last) →
        False)
    (hlater : later <:+ y) (hbefore : contents p x = contents p before) :
    Around p before m later (x ++ (p.opening.text ++ y)) := by
  obtain ⟨hopen, hcontents⟩ | ⟨last, hspan, hlast⟩ := spans_of_opening hclosed
  · have hnone := split_of_not_closing (p := p) (fun h => hopen (h.trans hlater.isInfix))
    refine ⟨?_, fun a ha => ?_⟩
    · have hnil : contents p later = [] := by rw [contents, hnone, List.map_nil]
      rw [hcontents, hbefore, hnil, List.append_nil]
    · rw [spans, hnone] at ha
      cases ha
  · exact (hmeets last hspan hlast).elim

section Around
variable {before m later rest : List X} {segments : List (List X × List X)}
  (hsplit : split p before = (segments, rest))
include hsplit

/-- What begins no block is text behind the blocks before it. -/
theorem split_behind {x : List X} (hskips : p.opening.Skips (rest ++ x) []) :
    split p (before ++ x) = (segments, rest ++ x) := by
  have hnone := split_of_not_opening (Tag.skips_nil_iff.1 hskips)
  rw [split_append_rest, hsplit, hnone, List.append_nil]

theorem around_open_before {inside behind : List X}
    (hopen : cut p.opening rest = some (inside, behind)) (hpos : 0 < m.length)
    (hapart : ∀ a ∈ spans p (before ++ (m ++ later)),
      a.2 ≤ before.length ∨ (before ++ m).length ≤ a.1) :
    Around p before m later (before ++ (m ++ later)) := by
  obtain ⟨hbefore, hdecomposed⟩ := split_eq_iff.1 hsplit
  obtain ⟨hq, hinside⟩ := cut_eq_some_iff.1 hopen
  have hfree : ¬p.closing.text <:+: behind := by
    have hnone := hdecomposed.rest
    rw [findBlock, hopen] at hnone
    exact cut_eq_none_iff.1 (Option.map_eq_none_iff.1 hnone)
  let x := assemble p segments inside
  have hx : split p x = (segments, inside) := by
    refine split_eq_iff.2 ⟨rfl, hdecomposed.gaps, hdecomposed.contents, ?_⟩
    rw [findBlock, cut_eq_none_iff.2 hinside]
  have hlong : before = x ++ (p.opening.text ++ behind) := by
    rw [hbefore, hq, assemble_rest]
  have hall : before ++ (m ++ later) = x ++ (p.opening.text ++ (behind ++ (m ++ later))) := by
    rw [hlong]
    simp
  rw [hall] at hapart ⊢
  apply around_of_opening
  · rw [hx]
    exact Tag.skips_of_head hinside (by simp [Tag.text])
  · intro last hspan hlast
    have hend := hlast behind (List.prefix_append _ _) hfree
    rw [← List.length_append, ← hlong] at hend
    have hstart := congrArg List.length hlong
    have hspan := hapart _ hspan
    simp only [List.length_append] at hstart hspan
    omega
  · exact (List.suffix_append m later).trans (List.suffix_append behind _)
  · rw [contents, contents, hx, hsplit]

theorem around_open_middle (hrest : ¬p.opening.text <:+: rest) {inside behind : List X}
    (hopen : cut p.opening m = some (inside, behind)) (hhead : ∀ c ∈ m.head?, c = mark)
    (hapart : ∀ a ∈ spans p (before ++ (m ++ later)),
      a.2 ≤ before.length ∨ (before ++ m).length ≤ a.1) :
    Around p before m later (before ++ (m ++ later)) := by
  obtain ⟨hq, hfree⟩ := cut_eq_some_iff.1 hopen
  have hfirst : ∀ c ∈ (inside ++ (p.opening.text ++ (behind ++ later))).head?, c = mark := by
    intro c hc
    apply hhead
    rw [hq]
    cases inside with
    | nil => simpa [Tag.text] using hc
    | cons d inside => simpa using hc
  have hskips : p.opening.Skips (rest ++ inside) (p.opening.text ++ (behind ++ later)) :=
    Tag.skips_append.2 ⟨Tag.skips_of_head hrest hfirst,
      Tag.skips_of_head hfree (by simp [Tag.text])⟩
  have hx := split_behind hsplit (Tag.Skips.of_append (by rwa [List.nil_append]))
  have hall : before ++ (m ++ later) =
      (before ++ inside) ++ (p.opening.text ++ (behind ++ later)) := by
    rw [hq]
    simp
  rw [hall] at hapart ⊢
  apply around_of_opening
  · rw [hx]
    exact hskips
  · intro last hspan hlast
    have hend := hlast [] List.nil_prefix (by simp [Tag.text])
    have hlength := congrArg List.length hq
    have htag : 0 < p.opening.text.length := Nat.succ_pos _
    have hspan := hapart _ hspan
    simp only [List.length_append] at hlength hspan hend
    omega
  · exact List.suffix_append behind later
  · rw [contents, contents, hx, hsplit]

theorem around_closed (hrest : ¬p.opening.text <:+: rest) (hm : Fenced p m)
    (hfree : ¬p.opening.text <:+: m) : Around p before m later (before ++ (m ++ later)) := by
  have hfirst : ∀ c ∈ (m ++ later).head?, c = mark := by
    intro c hc
    apply hm.head
    rwa [List.head?_append_of_ne_nil _ (List.ne_nil_of_length_pos hm.pos)] at hc
  have hclosed : p.opening.Skips (rest ++ m) later :=
    Tag.skips_append.2 ⟨Tag.skips_of_head hrest hfirst, hm.skips hfree later⟩
  have hx := split_behind hsplit (Tag.Skips.of_append (by rwa [List.nil_append]))
  have hsnd : p.opening.Skips (split p (before ++ m)).2 later := by rwa [hx]
  have hcontents : contents p (before ++ m) = contents p before := by
    rw [contents, contents, hx, hsplit]
  rw [← List.append_assoc]
  refine ⟨?_, fun a ha => mem_spans_append hsnd ha⟩
  rw [(split_append hsnd).1, hcontents]

end Around

theorem contents_around {before m later : List X} (hm : Fenced p m)
    (hapart : ∀ a ∈ spans p (before ++ (m ++ later)),
      a.2 ≤ before.length ∨ (before ++ m).length ≤ a.1) :
    Around p before m later (before ++ (m ++ later)) := by
  have hsplit : split p before = ((split p before).1, (split p before).2) := rfl
  cases hopen : cut p.opening (split p before).2 with
  | some q => exact around_open_before hsplit hopen hm.pos hapart
  | none =>
    have hrest := cut_eq_none_iff.1 hopen
    cases hinside : cut p.opening m with
    | some q => exact around_open_middle hsplit hrest hinside hm.head hapart
    | none => exact around_closed hsplit hrest hm (cut_eq_none_iff.1 hinside)

def emptyBlocks (p : Delims X mark) : ℕ → List X
  | 0 => []
  | k + 1 => p.opening.text ++ (p.closing.text ++ emptyBlocks p k)

theorem contents_emptyBlocks (p : Delims X mark) (k : ℕ) (y : List X) :
    contents p (emptyBlocks p k ++ y) = List.replicate k [] ++ contents p y := by
  induction k with
  | zero => rfl
  | succ k ih =>
    have hnil : ¬p.closing.text <:+: [] := by simp [Tag.text]
    have hfirst := contents_block hnil (emptyBlocks p k ++ y)
    rw [ih] at hfirst
    simpa [emptyBlocks, List.replicate_succ] using hfirst

omit [DecidableEq X] in
theorem Tag.skips_emptyBlocks {g : Tag X mark} (hopening : g.Apart p.opening)
    (hclosing : g.Apart p.closing) (k : ℕ) (y : List X) : g.Skips (emptyBlocks p k) y := by
  induction k with
  | zero => exact g.skips_nil y
  | succ k ih =>
    rw [emptyBlocks, skips_append, skips_append]
    exact ⟨hopening.skips _, hclosing.skips _, ih⟩

theorem le_length_contents (hapart : p.closing.Apart p.opening) (x y : List X) (k : ℕ) :
    k ≤ (contents p (x ++ (emptyBlocks p k ++ y))).length := by
  cases k with
  | zero => exact Nat.zero_le _
  | succ k =>
    obtain ⟨-, hdecomposed⟩ := split_spec p x
    have hlast := hdecomposed.rest
    rw [contents, split_append_rest, List.map_append, List.length_append]
    generalize (split p x).2 = rest at hlast
    suffices hrest : k + 1 ≤ (contents p (rest ++ (emptyBlocks p (k + 1) ++ y))).length by
      rw [contents] at hrest
      omega
    rw [findBlock] at hlast
    cases hopen : cut p.opening rest with
    | none =>
      have hskip := Tag.skips_of_head (cut_eq_none_iff.1 hopen) (y := emptyBlocks p (k + 1) ++ y)
        (by simp [emptyBlocks, Tag.text])
      rw [(split_skip hskip).1, contents_emptyBlocks]
      simp
    | some q =>
      obtain ⟨before, inside⟩ := q
      rw [hopen] at hlast
      obtain ⟨hrest, hbefore⟩ := cut_eq_some_iff.1 hopen
      have hclose := Tag.skips_of_head (cut_eq_none_iff.1 (Option.map_eq_none_iff.1 hlast))
        (y := p.opening.text) (by simp [Tag.text])
      have hswallowed : ¬p.closing.text <:+: inside ++ p.opening.text := by
        rw [← Tag.skips_nil_iff, Tag.skips_append, List.append_nil]
        exact ⟨hclose, hapart.skips []⟩
      have hskip := Tag.skips_of_head hbefore (y := p.opening.text ++ ((inside ++ p.opening.text) ++
        (p.closing.text ++ (emptyBlocks p k ++ y)))) (by simp [Tag.text])
      have hfound := (split_skip hskip).1.trans (contents_block hswallowed _)
      rw [contents_emptyBlocks] at hfound
      rw [hrest]
      simp only [emptyBlocks, List.append_assoc] at hfound ⊢
      rw [hfound]
      simp

end Slakshna.Tags

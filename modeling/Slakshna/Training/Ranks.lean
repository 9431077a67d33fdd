import Mathlib.Logic.Function.Basic
import Slakshna.Lib.Removal
import Slakshna.Lib.Run
import Slakshna.Training.Checkpoint

/-! The ranks of a process group in `save_checkpoint` up to the barrier before writing: each removes a
leftover directory if its `rank` argument is 0, and the first rank of the group makes the directory
anew. They take turns in any order, one system call at a time. -/
namespace Slakshna.Ranks
open FileTree Checkpoint
variable {S L : Type} {n : ℕ}

abbrev Rank (n : ℕ) := Fin (n + 1)

structure Call (n : ℕ) where
  step : ℕ
  rank : Rank n → ℕ
  listing : Rank n → List Name → IterOrder Name
  /-- From Python 3.13 on `rmtree` passes over entries that are gone. -/
  tolerant : Bool

/-- `save_and_prune` leaves the argument at its default. -/
def savePrune (step : ℕ) (listing : Rank n → List Name → IterOrder Name) (tolerant : Bool) :
    Call n where
  step := step
  rank := fun _ => 0
  listing := listing
  tolerant := tolerant

namespace Call

def tmpPath (c : Call n) : List Name := [tmpName c.step]

def mode (c : Call n) (r : Rank n) : RemovalMode Name := ⟨c.tmpPath, c.listing r, c.tolerant⟩

end Call

inductive Place where
  | check
  | rmtree (todo : List (Removal Name))
  | create
  | barrier
  | raised
  deriving DecidableEq

structure State (n : ℕ) (S L : Type) where
  disk : Checkpoint.Disk S L
  place : Rank n → Place

def State.goto (s : State n S L) (r : Rank n) (p : Place) : State n S L :=
  { s with place := Function.update s.place r p }

def isRankZero (r : Rank n) : Bool := decide (r = 0)

def Finds (c : Call n) (s : State n S L) (r : Rank n) : Prop :=
  s.place r = .check ∧ c.rank r = 0 ∧ pathExists s.disk c.tmpPath = true

def step (c : Call n) (s : State n S L) (r : Rank n) : State n S L :=
  match s.place r with
  | .check =>
    if c.rank r = 0 ∧ pathExists s.disk c.tmpPath = true then s.goto r (.rmtree [.list c.tmpPath])
    else s.goto r .create
  | .rmtree [] => s.goto r .create
  | .rmtree (x :: rest) =>
    match x.advance (c.mode r) s.disk with
    | none => s.goto r .raised
    | some (disk, more) =>
      { s with disk := disk }.goto r (if more ++ rest = [] then .create else .rmtree (more ++ rest))
  | .create =>
    if isRankZero r then
      { s with disk := exec s.disk [.mkdir [], .mkdir c.tmpPath] }.goto r .barrier
    else s.goto r .barrier
  | .barrier => s
  | .raised => s

def Settled (s : State n S L) : Prop := ∀ r, s.place r = .barrier ∨ s.place r = .raised

def Safe (c : Call n) (s : State n S L) : Prop :=
  (∀ r, s.place r ≠ .raised) ∧
    ((∀ r, s.place r = .barrier) → isDir s.disk c.tmpPath = true)

/-- A directory in which no rank has started to save: below `<path>.tmp` there is nothing, or what
an interrupted save left. -/
structure Leftover (c : Call n) (S L : Type) where
  disk : Checkpoint.Disk S L
  rooted : Rooted disk
  isDir_tmp : pathExists disk c.tmpPath = true → isDir disk c.tmpPath = true

def Leftover.fresh (c : Call n) : Leftover c S L := ⟨∅, by nofun, by nofun⟩

def Leftover.start {c : Call n} (leftover : Leftover c S L) : State n S L :=
  ⟨leftover.disk, fun _ => .check⟩

/-- A leftover is found only while no other rank removes it and the first rank has not made the
directory of this save. -/
def Alone (c : Call n) (s : State n S L) (r : Rank n) : Prop :=
  Finds c s r → (∀ q todo, s.place q ≠ .rmtree todo) ∧ s.place 0 ≠ .barrier

def ByRankZero (c : Call n) (s : State n S L) (r : Rank n) : Prop := Finds c s r → r = 0

@[simp] theorem goto_disk (s : State n S L) (r : Rank n) (p : Place) :
    (s.goto r p).disk = s.disk := rfl

@[simp] theorem goto_self (s : State n S L) (r : Rank n) (p : Place) :
    (s.goto r p).place r = p := by
  simp [State.goto]

@[simp] theorem goto_ne (s : State n S L) {r q : Rank n} (p : Place) (h : q ≠ r) :
    (s.goto r p).place q = s.place q := by
  simp [State.goto, h]

inductive Moves (c : Call n) (s : State n S L) (r : Rank n) : State n S L → Prop where
  | find (h : Finds c s r) : Moves c s r (s.goto r (.rmtree [.list c.tmpPath]))
  | pass (hr : s.place r = .check) (h : ¬Finds c s r) : Moves c s r (s.goto r .create)
  | returned (hr : s.place r = .rmtree []) : Moves c s r (s.goto r .create)
  | raise (x : Removal Name) (rest : List (Removal Name)) (hr : s.place r = .rmtree (x :: rest))
      (h : x.advance (c.mode r) s.disk = none) : Moves c s r (s.goto r .raised)
  | call (x : Removal Name) (rest more : List (Removal Name)) (disk : Checkpoint.Disk S L)
      (hr : s.place r = .rmtree (x :: rest))
      (h : x.advance (c.mode r) s.disk = some (disk, more)) :
      Moves c s r ({ s with disk := disk }.goto r
        (if more ++ rest = [] then .create else .rmtree (more ++ rest)))
  | create (hr : s.place r = .create) (h : r = 0) : Moves c s r
      ({ s with disk := exec s.disk [.mkdir [], .mkdir c.tmpPath] }.goto r .barrier)
  | skip (hr : s.place r = .create) (h : r ≠ 0) : Moves c s r (s.goto r .barrier)
  | wait (hr : s.place r = .barrier ∨ s.place r = .raised) : Moves c s r s

theorem step_moves (c : Call n) (s : State n S L) (r : Rank n) : Moves c s r (step c s r) := by
  rw [step]
  cases hr : s.place r with
  | check =>
    by_cases hfinds : c.rank r = 0 ∧ pathExists s.disk c.tmpPath = true
    · simp only [if_pos hfinds]
      exact .find ⟨hr, hfinds⟩
    · simp only [if_neg hfinds]
      exact .pass hr (fun h => hfinds h.2)
  | rmtree todo =>
    cases todo with
    | nil => exact .returned hr
    | cons x rest =>
      cases h : x.advance (c.mode r) s.disk with
      | none =>
        simp only [h]
        exact .raise x rest hr h
      | some made =>
        simp only [h]
        exact .call x rest made.2 made.1 hr h
  | create =>
    by_cases hzero : r = 0
    · simp only [isRankZero, hzero, decide_true, if_true]
      exact hzero ▸ .create hr hzero
    · simp only [isRankZero, hzero, decide_false, Bool.false_eq_true, if_false]
      exact .skip hr hzero
  | barrier => exact .wait (.inl hr)
  | raised => exact .wait (.inr hr)

theorem step_place_ne (c : Call n) (s : State n S L) {r q : Rank n} (h : q ≠ r) :
    (step c s r).place q = s.place q := by
  have hmoves := step_moves c s r
  generalize step c s r = s' at hmoves
  cases hmoves with
  | wait hr => rfl
  | _ => exact goto_ne _ _ h

theorem step_waits {c : Call n} {s : State n S L} {r : Rank n}
    (h : s.place r = .barrier ∨ s.place r = .raised) : step c s r = s := by
  cases h with
  | inl h => simp only [step, h]
  | inr h => simp only [step, h]

theorem step_create {c : Call n} {s : State n S L} (h : s.place 0 = .create) :
    (step c s 0).place 0 = .barrier := by
  simp [step, h, isRankZero]

theorem isDir_of_step {c : Call n} {s : State n S L} {r : Rank n} {p : List Name}
    (h : isDir (step c s r).disk p = true) :
    isDir s.disk p = true ∨ r = 0 ∧ s.place 0 = .create := by
  have hmoves := step_moves c s r
  generalize step c s r = s' at hmoves h
  cases hmoves with
  | call x rest more disk hr hcall => exact .inl (isDir_of_advance hcall h)
  | create hr hzero => exact .inr ⟨hzero, hzero ▸ hr⟩
  | _ => exact .inl h

/-! Runs in which a leftover is found only by one rank alone. -/

def Passive (p : Place) : Prop := p = .check ∨ p = .create ∨ p = .barrier

/-- The group goes from a leftover, through its removal by one rank, to a cleared directory and from
there to the one that the first rank makes. -/
inductive Inv (c : Call n) (s : State n S L) : Prop where
  | leftover (hrooted : Rooted s.disk) (hdir : isDir s.disk c.tmpPath = true)
      (hzero : s.place 0 = .check) (hothers : ∀ q, Passive (s.place q))
  | removal (r : Rank n) (todo : List (Removal Name)) (cleared : Checkpoint.Disk S L)
      (hr : s.place r = .rmtree todo) (hends : EndsAtTop (c.mode r) todo)
      (hcompletes : Completes (c.mode r) s.disk todo cleared)
      (hgone : pathExists cleared c.tmpPath = false) (hzero : r = 0 ∨ s.place 0 = .check)
      (hothers : ∀ q, q ≠ r → Passive (s.place q))
  | cleared (hgone : pathExists s.disk c.tmpPath = false)
      (hzero : s.place 0 = .check ∨ s.place 0 = .create) (hothers : ∀ q, Passive (s.place q))
  | created (hdir : isDir s.disk c.tmpPath = true) (hzero : s.place 0 = .barrier)
      (hothers : ∀ q, Passive (s.place q))

theorem Inv.start {c : Call n} (leftover : Leftover c S L) : Inv c leftover.start := by
  by_cases hexists : pathExists leftover.disk c.tmpPath = true
  · exact .leftover leftover.rooted (leftover.isDir_tmp hexists) rfl (fun _ => .inl rfl)
  · exact .cleared (Bool.eq_false_iff.2 hexists) (.inl rfl) (fun _ => .inl rfl)

theorem Passive.goto {s : State n S L} {r : Rank n} {p : Place} (hp : Passive p)
    (h : ∀ q, q ≠ r → Passive (s.place q)) (q : Rank n) : Passive ((s.goto r p).place q) := by
  by_cases hqr : q = r
  · rw [hqr, goto_self]
    exact hp
  · rw [goto_ne s p hqr]
    exact h q hqr

theorem Passive.ne_raised {p : Place} (h : Passive p) : p ≠ .raised := by
  obtain rfl | rfl | rfl := h
  all_goals nofun

theorem Passive.ne_rmtree {p : Place} (h : Passive p) (todo : List (Removal Name)) :
    p ≠ .rmtree todo := by
  obtain rfl | rfl | rfl := h
  all_goals nofun

theorem Inv.safe {c : Call n} {s : State n S L} (h : Inv c s) : Safe c s := by
  cases h with
  | leftover hrooted hdir hzero hothers =>
    exact ⟨fun r => (hothers r).ne_raised, fun _ => hdir⟩
  | removal r todo cleared hr hends hcompletes hgone hzero hothers =>
    constructor
    · intro q
      by_cases hqr : q = r
      · rw [hqr, hr]
        nofun
      · exact (hothers q hqr).ne_raised
    · intro hopen
      rw [hopen r] at hr
      cases hr
  | cleared hgone hzero hothers =>
    refine ⟨fun r => (hothers r).ne_raised, fun hopen => ?_⟩
    rw [hopen 0] at hzero
    exact hzero.elim nofun nofun
  | created hdir hzero hothers => exact ⟨fun r => (hothers r).ne_raised, fun _ => hdir⟩

theorem pathExists_of_isDir {t : Checkpoint.Disk S L} {p : List Name} (h : isDir t p = true) :
    pathExists t p = true := pathExists_iff.2 ⟨p, mem_of_isDir h, List.prefix_refl p⟩

theorem isDir_mkdir {t : Checkpoint.Disk S L} {c : Call n} (h : pathExists t c.tmpPath = false) :
    isDir (exec t [.mkdir [], .mkdir c.tmpPath]) c.tmpPath = true := by
  have hroot : (Op.mkdir [] : Op Name (Content S L)).Touches (fun q => q = []) := rfl
  have hnone : c.tmpPath ∉ Op.apply t (.mkdir []) := by
    intro hmem
    have ht : c.tmpPath ∈ t :=
      (mem_iff_of_lookup (lookup_apply hroot t (List.cons_ne_nil _ _))).1 hmem
    rw [pathExists_iff.2 ⟨_, ht, List.prefix_refl _⟩] at h
    cases h
  have hmkdir : exec t [.mkdir [], .mkdir c.tmpPath] =
      AList.insert c.tmpPath .dir (Op.apply t (.mkdir [])) := if_neg hnone
  rw [isDir_iff, hmkdir, AList.lookup_insert]

section Step
variable {c : Call n} {s : State n S L} {r : Rank n}

theorem Inv.goto (h : Inv c s) {p : Place} (hr : Passive (s.place r)) (hp : Passive p)
    (hne : r ≠ 0) : Inv c (s.goto r p) := by
  have hplace : (s.goto r p).place 0 = s.place 0 := goto_ne s p (Ne.symm hne)
  cases h with
  | leftover hrooted hdir hzero hothers =>
    exact .leftover hrooted hdir (hplace.trans hzero) (hp.goto (fun q _ => hothers q))
  | removal q todo cleared hq hends hcompletes hgone hzero hothers =>
    have hqr : q ≠ r := by
      rintro rfl
      exact hr.ne_rmtree todo hq
    refine .removal q todo cleared ((goto_ne s p hqr).trans hq) hends hcompletes hgone ?_ ?_
    · rwa [hplace]
    · intro q' hq'
      by_cases hqr' : q' = r
      · rw [hqr', goto_self]
        exact hp
      · rw [goto_ne s p hqr']
        exact hothers q' hq'
  | cleared hgone hzero hothers =>
    refine .cleared hgone ?_ (hp.goto (fun q _ => hothers q))
    rwa [hplace]
  | created hdir hzero hothers =>
    exact .created hdir (hplace.trans hzero) (hp.goto (fun q _ => hothers q))

theorem Inv.pass_zero (h : Inv c s) (hrank : c.rank 0 = 0) (hr : s.place 0 = .check)
    (hpass : ¬Finds c s 0) : Inv c (s.goto 0 .create) := by
  have hgone : pathExists s.disk c.tmpPath = false := by
    rw [Bool.eq_false_iff]
    exact fun hexists => hpass ⟨hr, hrank, hexists⟩
  have hdir : isDir s.disk c.tmpPath ≠ true := by
    intro hdir
    rw [pathExists_of_isDir hdir] at hgone
    cases hgone
  cases h with
  | leftover hrooted hleftover hzero hothers => exact absurd hleftover hdir
  | removal q todo cleared hq hends hcompletes hcleared hzero hothers =>
    exact absurd (hcompletes.isDir_top hends) hdir
  | cleared _ hzero hothers =>
    exact .cleared hgone (.inr (goto_self s 0 _))
      (Passive.goto (.inr (.inl rfl)) (fun q _ => hothers q))
  | created hcreated hzero hothers => exact absurd hcreated hdir

theorem Inv.find (h : Inv c s) (hfinds : Finds c s r) (halone : Alone c s r) :
    Inv c (s.goto r (.rmtree [.list c.tmpPath])) := by
  obtain ⟨hnone, hbarrier⟩ := halone hfinds
  cases h with
  | leftover hrooted hdir hzero hothers =>
    obtain ⟨cleared, hcompletes, hcleared⟩ := removable (c.mode r) hrooted hdir
    refine .removal r _ cleared (goto_self s r _) (.inl rfl) hcompletes hcleared.not_pathExists ?_ ?_
    · by_cases hr : r = 0
      · exact .inl hr
      · exact .inr ((goto_ne s _ (Ne.symm hr)).trans hzero)
    · intro q hq
      rw [goto_ne s _ hq]
      exact hothers q
  | removal q todo cleared hq hends hcompletes hgone hzero hothers => exact absurd hq (hnone q todo)
  | cleared hgone hzero hothers =>
    rw [hfinds.2.2] at hgone
    cases hgone
  | created hdir hzero hothers => exact absurd hzero hbarrier

theorem Inv.of_rmtree (h : Inv c s) {todo : List (Removal Name)} (hr : s.place r = .rmtree todo) :
    EndsAtTop (c.mode r) todo ∧ (∃ cleared, Completes (c.mode r) s.disk todo cleared ∧
      pathExists cleared c.tmpPath = false) ∧ (r = 0 ∨ s.place 0 = .check) ∧
        ∀ q, q ≠ r → Passive (s.place q) := by
  cases h with
  | leftover hrooted hdir hzero hothers => exact absurd hr ((hothers r).ne_rmtree _)
  | removal q todo' cleared hq hends hcompletes hgone hzero hothers =>
    have hrq : r = q := by
      by_contra hne
      exact (hothers r hne).ne_rmtree _ hr
    subst hrq
    cases Place.rmtree.inj (hq.symm.trans hr)
    exact ⟨hends, ⟨cleared, hcompletes, hgone⟩, hzero, hothers⟩
  | cleared hgone hzero hothers => exact absurd hr ((hothers r).ne_rmtree _)
  | created hdir hzero hothers => exact absurd hr ((hothers r).ne_rmtree _)

theorem Inv.call (h : Inv c s) {x : Removal Name} {rest : List (Removal Name)}
    (hr : s.place r = .rmtree (x :: rest)) :
    ∃ more disk, x.advance (c.mode r) s.disk = some (disk, more) ∧
      Inv c ({ s with disk := disk }.goto r
        (if more ++ rest = [] then .create else .rmtree (more ++ rest))) := by
  obtain ⟨hends, ⟨cleared, hcompletes, hgone⟩, hzero, hothers⟩ := h.of_rmtree hr
  cases hcompletes with
  | @call _ disk _ _ more _ hcall hrest =>
    refine ⟨more, disk, hcall, ?_⟩
    by_cases hlast : more ++ rest = []
    · rw [if_pos hlast]
      rw [hlast] at hrest
      cases hrest
      refine .cleared hgone ?_ (Passive.goto (.inr (.inl rfl)) hothers)
      by_cases hr0 : r = 0
      · subst hr0
        exact .inr (goto_self _ 0 _)
      · exact .inl ((goto_ne _ _ (Ne.symm hr0)).trans (hzero.resolve_left hr0))
    · rw [if_neg hlast]
      have hends' := (advance_endsAtTop hends hcall).resolve_right (fun h => hlast h.1)
      refine .removal r _ cleared (goto_self _ r _) hends' hrest hgone ?_ ?_
      · by_cases hr0 : r = 0
        · exact .inl hr0
        · exact .inr ((goto_ne _ _ (Ne.symm hr0)).trans (hzero.resolve_left hr0))
      · intro q hq
        rw [goto_ne _ _ hq]
        exact hothers q hq

theorem Inv.create (h : Inv c s) (hr : s.place 0 = .create) :
    Inv c ({ s with disk := exec s.disk [.mkdir [], .mkdir c.tmpPath] }.goto 0 .barrier) := by
  cases h with
  | leftover hrooted hdir hzero hothers =>
    rw [hr] at hzero
    cases hzero
  | removal q todo cleared hq hends hcompletes hgone hzero hothers =>
    cases hzero with
    | inl hq0 =>
      rw [hq0, hr] at hq
      cases hq
    | inr hcheck =>
      rw [hr] at hcheck
      cases hcheck
  | cleared hgone hzero hothers =>
    exact .created (isDir_mkdir hgone) (goto_self _ 0 _)
      (Passive.goto (.inr (.inr rfl)) (fun q _ => hothers q))
  | created hdir hzero hothers =>
    rw [hr] at hzero
    cases hzero

theorem Inv.step (hrank : c.rank 0 = 0) (h : Inv c s) (halone : Alone c s r) :
    Inv c (step c s r) := by
  have hmoves := step_moves c s r
  generalize Ranks.step c s r = s' at hmoves
  cases hmoves with
  | find hfinds => exact h.find hfinds halone
  | pass hr hpass =>
    by_cases hzero : r = 0
    · subst hzero
      exact h.pass_zero hrank hr hpass
    · exact h.goto (.inl hr) (.inr (.inl rfl)) hzero
  | returned hr => exact (h.of_rmtree hr).1.elim nofun nofun
  | raise x rest hr hraise =>
    obtain ⟨more, disk, hcall, _⟩ := h.call hr
    rw [hraise] at hcall
    cases hcall
  | call x rest more disk hr hcall =>
    obtain ⟨more', disk', hcall', hinv⟩ := h.call hr
    rw [hcall] at hcall'
    cases hcall'
    exact hinv
  | create hr hzero =>
    subst hzero
    exact h.create hr
  | skip hr hne => exact h.goto (.inr (.inl hr)) (.inr (.inr rfl)) hne
  | wait hr => exact h

end Step

/-! Runs in which a leftover is found by a second rank, or after the directory was made. -/

def Pending (c : Call n) (s : State n S L) (r : Rank n) : Prop :=
  ∃ todo, s.place r = .rmtree todo ∧ EndsAtTop (c.mode r) todo

inductive Lost (c : Call n) (s : State n S L) : Prop where
  | raised (r : Rank n) (hr : s.place r = .raised)
  | gone (hzero : s.place 0 = .barrier) (hgone : isDir s.disk c.tmpPath = false)
  | removed (hzero : s.place 0 = .barrier) (r : Rank n) (hr : Pending c s r)
  | behind (hgone : isDir s.disk c.tmpPath = false) (r : Rank n) (hr : Pending c s r)
  | both (r q : Rank n) (hrq : r ≠ q) (hr : Pending c s r) (hq : Pending c s q)

section Lost
variable {c : Call n} {s : State n S L} {r : Rank n}

theorem Lost.not_safe (h : Lost c s) (hsettled : Settled s) : ¬Safe c s := by
  intro hsafe
  have hbarrier : ∀ r, s.place r = .barrier :=
    fun r => (hsettled r).resolve_right (hsafe.1 r)
  have hnone : ∀ r, ¬Pending c s r := by
    intro r hr
    obtain ⟨todo, hr, _⟩ := hr
    rw [hbarrier r] at hr
    cases hr
  cases h with
  | raised r hr => exact hsafe.1 r hr
  | gone hzero hgone =>
    rw [hsafe.2 hbarrier] at hgone
    cases hgone
  | removed hzero r hr => exact hnone r hr
  | behind hgone r hr => exact hnone r hr
  | both r q hrq hr hq => exact hnone r hr

theorem Pending.of_ne {q : Rank n} (h : Pending c s q) (hqr : q ≠ r) :
    Pending c (step c s r) q := by
  obtain ⟨todo, hq, hends⟩ := h
  exact ⟨todo, (step_place_ne c s hqr).trans hq, hends⟩

theorem Pending.step (h : Pending c s r) : (step c s r).place r = .raised ∨
    Pending c (step c s r) r ∨
      isDir s.disk c.tmpPath = true ∧ isDir (step c s r).disk c.tmpPath = false := by
  obtain ⟨todo, hr, hends⟩ := h
  cases todo with
  | nil => exact hends.elim nofun nofun
  | cons x rest =>
    cases hcall : x.advance (c.mode r) s.disk with
    | none =>
      left
      simp [Ranks.step, hr, hcall]
    | some made =>
      right
      have hstep : Ranks.step c s r = { s with disk := made.1 }.goto r
          (if made.2 ++ rest = [] then .create else .rmtree (made.2 ++ rest)) := by
        simp only [Ranks.step, hr, hcall]
      rw [hstep]
      cases advance_endsAtTop hends hcall with
      | inl hends' =>
        have hmore : made.2 ++ rest ≠ [] := by
          intro hnil
          rw [hnil] at hends'
          exact hends'.elim nofun nofun
        rw [if_neg hmore]
        exact .inl ⟨_, goto_self _ r _, hends'⟩
      | inr hlast => exact .inr hlast.2

theorem Lost.of_finds (h : Inv c s) (halone : ¬Alone c s r) : Lost c (Ranks.step c s r) := by
  obtain ⟨hfinds, hnot⟩ := Classical.not_imp.1 halone
  have hplace : (Ranks.step c s r).place r = .rmtree [.list c.tmpPath] := by
    simp [Ranks.step, hfinds.1, hfinds.2.1, hfinds.2.2]
  have hpending : Pending c (Ranks.step c s r) r := ⟨_, hplace, .inl rfl⟩
  by_cases hbarrier : s.place 0 = .barrier
  · have hne : (0 : Rank n) ≠ r := by
      rintro rfl
      rw [hfinds.1] at hbarrier
      cases hbarrier
    exact .removed ((step_place_ne c s hne).trans hbarrier) r hpending
  · have hother : ∃ q todo, s.place q = .rmtree todo := by
      by_contra hnone
      push Not at hnone
      exact hnot ⟨hnone, hbarrier⟩
    obtain ⟨q, todo, hq⟩ := hother
    have hqr : q ≠ r := by
      rintro rfl
      rw [hfinds.1] at hq
      cases hq
    exact .both r q (Ne.symm hqr) hpending (Pending.of_ne ⟨todo, hq, (h.of_rmtree hq).1⟩ hqr)

theorem Lost.step (h : Lost c s) : Lost c (Ranks.step c s r) := by
  have hbarrier : s.place 0 = .barrier → (Ranks.step c s r).place 0 = .barrier := by
    intro hzero
    by_cases hr : r = 0
    · rw [step_waits (.inl (hr ▸ hzero)), hzero]
    · rw [step_place_ne c s (Ne.symm hr), hzero]
  have hgone : isDir s.disk c.tmpPath = false → s.place 0 ≠ .create ∨ r ≠ 0 →
      isDir (Ranks.step c s r).disk c.tmpPath = false := by
    intro hgone hcreate
    rw [Bool.eq_false_iff]
    intro hdir
    cases isDir_of_step hdir with
    | inl hdir =>
      rw [hgone] at hdir
      cases hdir
    | inr hzero => exact hcreate.elim (fun h => h hzero.2) (fun h => h hzero.1)
  cases h with
  | raised q hq =>
    by_cases hqr : q = r
    · subst hqr
      rw [step_waits (.inr hq)]
      exact .raised q hq
    · exact .raised q ((step_place_ne c s hqr).trans hq)
  | gone hzero h => exact .gone (hbarrier hzero) (hgone h (.inl (by rw [hzero]; nofun)))
  | removed hzero q hq =>
    by_cases hqr : q = r
    · subst hqr
      obtain hraised | hpending | hlast := hq.step
      · exact .raised q hraised
      · exact .removed (hbarrier hzero) q hpending
      · exact .gone (hbarrier hzero) hlast.2
    · exact .removed (hbarrier hzero) q (hq.of_ne hqr)
  | behind h q hq =>
    by_cases hqr : q = r
    · subst hqr
      obtain hraised | hpending | hlast := hq.step
      · exact .raised q hraised
      · refine .behind (hgone h ?_) q hpending
        by_cases hq0 : q = 0
        · left
          obtain ⟨todo, hplace, _⟩ := hq
          rw [← hq0, hplace]
          nofun
        · exact .inr hq0
      · rw [h] at hlast
        cases hlast.1
    · by_cases hcreate : s.place 0 = .create ∧ r = 0
      · obtain ⟨hzero, rfl⟩ := hcreate
        exact .removed (step_create hzero) q (hq.of_ne hqr)
      · exact .behind (hgone h (not_and_or.1 hcreate)) q (hq.of_ne hqr)
  | both q q' hne hq hq' =>
    by_cases hqr : q = r
    · subst hqr
      obtain hraised | hpending | hlast := hq.step
      · exact .raised q hraised
      · exact .both q q' hne hpending (hq'.of_ne (Ne.symm hne))
      · exact .behind hlast.2 q' (hq'.of_ne (Ne.symm hne))
    · by_cases hqr' : q' = r
      · subst hqr'
        obtain hraised | hpending | hlast := hq'.step
        · exact .raised q' hraised
        · exact .both q q' hne (hq.of_ne hne) hpending
        · exact .behind hlast.2 q (hq.of_ne hne)
      · exact .both q q' hne (hq.of_ne hqr) (hq'.of_ne hqr')

end Lost

def reach {c : Call n} (leftover : Leftover c S L) (turns : List (Rank n)) : State n S L :=
  Run.exec (step c) leftover.start turns

def EachTurn {c : Call n} (Ok : Call n → State n S L → Rank n → Prop) (leftover : Leftover c S L)
    (turns : List (Rank n)) : Prop := Run.Along (step c) (Ok c) leftover.start turns

def RankZeroRemoves (s : State n S L) : Prop := ∀ r todo, s.place r = .rmtree todo → r = 0

theorem rankZeroRemoves_step {c : Call n} {s : State n S L} {r : Rank n} (h : RankZeroRemoves s)
    (hfind : ByRankZero c s r) : RankZeroRemoves (step c s r) := by
  intro q todo hq
  by_cases hqr : q = r
  · subst hqr
    have hmoves := step_moves c s q
    generalize step c s q = s' at hmoves hq
    cases hmoves with
    | find hfinds => exact hfind hfinds
    | call x rest more disk hplace hcall => exact h q _ hplace
    | wait hplace => exact h q todo hq
    | _ =>
      rw [goto_self] at hq
      cases hq
  · exact h q todo ((step_place_ne c s hqr).symm.trans hq)

theorem byRankZero_of_step {c : Call n} {s : State n S L} {r : Rank n}
    (h : RankZeroRemoves (step c s r)) : ByRankZero c s r := by
  intro hfinds
  apply h r [.list c.tmpPath]
  simp [step, hfinds.1, hfinds.2.1, hfinds.2.2]

theorem alone_of_byRankZero {c : Call n} {s : State n S L} {r : Rank n} (h : RankZeroRemoves s)
    (hfind : ByRankZero c s r) : Alone c s r := by
  intro hfinds
  have hcheck := hfinds.1
  rw [hfind hfinds] at hcheck
  constructor
  · intro q todo hq
    rw [h q todo hq, hcheck] at hq
    cases hq
  · rw [hcheck]
    nofun

theorem safe_of_alone {c : Call n} (hrank : c.rank 0 = 0) (leftover : Leftover c S L)
    {turns : List (Rank n)} (h : EachTurn Alone leftover turns) (k : ℕ) :
    Safe c (reach leftover (turns.take k)) := by
  apply Inv.safe
  apply Run.invariant_take _ (Inv.start leftover) h k
  intro s r hs halone
  exact hs.step hrank halone

theorem lost_of_not_alone {c : Call n} (hrank : c.rank 0 = 0) (leftover : Leftover c S L)
    {turns : List (Rank n)} (h : ¬EachTurn Alone leftover turns) :
    Lost c (reach leftover turns) := by
  apply Run.exec_of_not_along _ _ _ (Inv.start leftover) h
  · intro s r hs halone
    exact hs.step hrank halone
  · intro s r hs halone
    exact Lost.of_finds hs halone
  · intro s r hs
    exact hs.step

theorem safe_of_byRankZero {c : Call n} (hrank : c.rank 0 = 0) (leftover : Leftover c S L)
    {turns : List (Rank n)} (h : EachTurn ByRankZero leftover turns) (k : ℕ) :
    Safe c (reach leftover (turns.take k)) ∧
      RankZeroRemoves (reach leftover (turns.take k)) := by
  have hstart : Inv c leftover.start ∧ RankZeroRemoves leftover.start :=
    ⟨Inv.start leftover, fun r todo hr => nomatch hr⟩
  have hstep : ∀ (s : State n S L) r, Inv c s ∧ RankZeroRemoves s → ByRankZero c s r →
      Inv c (step c s r) ∧ RankZeroRemoves (step c s r) := by
    intro s r hs hfind
    exact ⟨hs.1.step hrank (alone_of_byRankZero hs.2 hfind), rankZeroRemoves_step hs.2 hfind⟩
  have hinv := Run.invariant_take hstep hstart h k
  exact ⟨hinv.1.safe, hinv.2⟩

theorem passedRank_safe {c : Call n} (hrank : ∀ r, c.rank r = r) (leftover : Leftover c S L)
    (turns : List (Rank n)) (k : ℕ) :
    Safe c (reach leftover (turns.take k)) ∧
      RankZeroRemoves (reach leftover (turns.take k)) := by
  apply safe_of_byRankZero (hrank 0)
  apply Run.along_of_forall
  intro s r hfinds
  have hzero := hfinds.2.1
  rw [hrank r] at hzero
  exact Fin.ext hzero

/-- As `save_and_prune` calls it: only the first rank removes, and what it makes is kept, exactly if
no other rank finds a leftover. Even where another one does, all is well if whoever finds it is alone
and early, and no run of all ranks is safe otherwise. -/
theorem saveCheckpoint_safe_iff (stepNo : ℕ) (listing : Rank n → List Name → IterOrder Name)
    (tolerant : Bool) (leftover : Leftover (savePrune stepNo listing tolerant) S L)
    (turns : List (Rank n)) :
    ((∀ k, Safe (savePrune stepNo listing tolerant) (reach leftover (turns.take k)) ∧
        RankZeroRemoves (reach leftover (turns.take k))) ↔
      EachTurn ByRankZero leftover turns) ∧
    (EachTurn Alone leftover turns →
      ∀ k, Safe (savePrune stepNo listing tolerant) (reach leftover (turns.take k))) ∧
    (Settled (reach leftover turns) →
      (∀ k, Safe (savePrune stepNo listing tolerant) (reach leftover (turns.take k))) →
      EachTurn Alone leftover turns) := by
  refine ⟨⟨?_, ?_⟩, ?_, ?_⟩
  · intro h
    exact Run.along_of_forall_take (fun s r => byRankZero_of_step) (fun k => (h k).2)
  · intro h k
    exact safe_of_byRankZero rfl leftover h k
  · intro h k
    exact safe_of_alone rfl leftover h k
  · intro hsettled hsafe
    by_contra hturns
    have hend := hsafe turns.length
    rw [List.take_length] at hend
    exact (lost_of_not_alone rfl leftover hturns).not_safe hsettled hend

def twoRanks : Call 1 := savePrune 1 (fun _ _ => .asStored) false

/-- Nothing is left over. The second of two ranks looks after the first one has made its directory,
and removes it: both wait at the barrier, and the directory is gone. -/
theorem secondRank_removes :
    ¬∀ (leftover : Leftover twoRanks Unit Unit) (turns : List (Rank 1)),
      Safe twoRanks (reach leftover turns) := by
  intro h
  have hsafe := h (Leftover.fresh twoRanks) [0, 0, 1, 1, 1, 1]
  have hgone : isDir (reach (Leftover.fresh twoRanks : Leftover twoRanks Unit Unit)
      [0, 0, 1, 1, 1, 1]).disk twoRanks.tmpPath = false := by decide
  rw [hsafe.2 (by decide)] at hgone
  cases hgone

end Slakshna.Ranks

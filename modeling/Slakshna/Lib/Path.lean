import Mathlib.Data.List.Basic

/-! File paths up to their lexical normal form: empty and `.` components are dropped, a `..` takes
the component before it with it. Links in the file system are not followed. -/
namespace Slakshna

structure Path where
  absolute : Bool
  parts : List (List Char)
  deriving DecidableEq

abbrev Disk := Path → Option String

namespace Path

def enter (absolute : Bool) (parts : List (List Char)) (c : List Char) : List (List Char) :=
  if c = [] ∨ c = ['.'] then parts
  else if c = ['.', '.'] then
    match parts.getLast? with
    | none => if absolute then [] else [c]
    | some last => if last = ['.', '.'] then parts ++ [c] else parts.dropLast
  else parts ++ [c]

def follow (dir : Path) (s : List Char) : Path :=
  { dir with parts := (s.splitOn '/').foldl (enter dir.absolute) dir.parts }

def normalise (s : List Char) : Path := follow ⟨s.head? == some '/', []⟩ s

def IsName (c : List Char) : Prop := '/' ∉ c ∧ c ≠ [] ∧ c ≠ ['.'] ∧ c ≠ ['.', '.']

def DirectlyInside (p dir : Path) : Prop := ∃ name, p = { dir with parts := dir.parts ++ [name] }

theorem enter_of_isName {c : List Char} (h : IsName c) (absolute : Bool)
    (parts : List (List Char)) : enter absolute parts c = parts ++ [c] := by
  obtain ⟨_, hne, hdot, hdots⟩ := h
  simp [enter, hne, hdot, hdots]

theorem follow_cut (dir : Path) (s t : List Char) :
    follow dir (s ++ '/' :: t) = follow (follow dir s) t := by
  simp [follow, List.splitOn_append_cons_self, List.foldl_append]

theorem follow_nil (dir : Path) : follow dir [] = dir := by
  simp [follow, enter]

theorem normalise_cut {s : List Char} (hs : s ≠ []) (t : List Char) :
    normalise (s ++ '/' :: t) = follow (normalise s) t := by
  cases s with
  | nil => exact absurd rfl hs
  | cons c cs =>
    rw [normalise, normalise, follow_cut]
    rfl

theorem normalise_slash (t : List Char) : normalise ('/' :: t) = follow ⟨true, []⟩ t := by
  simpa [follow_nil, normalise] using follow_cut ⟨true, []⟩ [] t

def initParts (s : List Char) : List (List Char) := (s.splitOn '/').dropLast

def lastPart (s : List Char) : List Char := (s.splitOn '/').getLastD []

theorem splitOn_append {s t : List Char} (ht : '/' ∉ t) :
    (s ++ t).splitOn '/' = initParts s ++ [lastPart s ++ t] := by
  unfold initParts lastPart
  induction s with
  | nil => simp [List.splitOn_eq_singleton ht]
  | cons c cs ih =>
    have hne : cs.splitOn '/' ≠ [] := List.splitOn_ne_nil '/' cs
    rw [List.cons_append, List.splitOn_cons_eq_if_modifyHead, ih,
      List.splitOn_cons_eq_if_modifyHead]
    cases hcs : cs.splitOn '/' with
    | nil => exact absurd hcs hne
    | cons x xs =>
      cases xs with
      | nil => by_cases hc : c = '/' <;> simp [hc]
      | cons y ys => by_cases hc : c = '/' <;> simp [hc]

theorem initParts_of_not_mem {s : List Char} (h : '/' ∉ s) : initParts s = [] := by
  simp [initParts, List.splitOn_eq_singleton h]

theorem lastPart_of_not_mem {s : List Char} (h : '/' ∉ s) : lastPart s = s := by
  simp [lastPart, List.splitOn_eq_singleton h]

theorem not_mem_of_mem_splitOn {s w : List Char} (h : w ∈ s.splitOn '/') : '/' ∉ w := by
  induction s generalizing w with
  | nil => simp_all
  | cons c cs ih =>
    rw [List.splitOn_cons_eq_if_modifyHead] at h
    by_cases hc : c = '/'
    · rw [if_pos (by simpa using hc)] at h
      cases List.mem_cons.1 h with
      | inl hnil => simp [hnil]
      | inr hmem => exact ih hmem
    · rw [if_neg (by simpa using hc)] at h
      cases hcs : cs.splitOn '/' with
      | nil => exact absurd hcs (List.splitOn_ne_nil '/' cs)
      | cons x xs =>
        rw [hcs] at h ih
        cases List.mem_cons.1 h with
        | inl hhead => simpa [hhead, Ne.symm hc] using ih (w := x) (by simp)
        | inr htail => exact ih (List.mem_cons_of_mem _ htail)

theorem not_mem_lastPart (s : List Char) : '/' ∉ lastPart s := by
  have hne := List.splitOn_ne_nil '/' s
  rw [lastPart, List.getLastD_eq_getLast?, List.getLast?_eq_some_getLast hne, Option.getD_some]
  exact not_mem_of_mem_splitOn (List.getLast_mem hne)

def walk (dir : Path) (s : List Char) : List (List Char) :=
  (initParts s).foldl (enter dir.absolute) dir.parts

theorem follow_append {s t : List Char} (ht : '/' ∉ t) (hname : IsName (lastPart s ++ t))
    (dir : Path) : follow dir (s ++ t) =
      { dir with parts := walk dir s ++ [lastPart s ++ t] } := by
  rw [follow, splitOn_append ht, List.foldl_append, List.foldl_cons, List.foldl_nil,
    enter_of_isName hname, walk]

def join (a b : List Char) : List Char :=
  if b.head? = some '/' then b
  else if a = [] ∨ a.getLast? = some '/' then a ++ b
  else a ++ '/' :: b

theorem normalise_join {a b : List Char} (ha : a ≠ []) (hb : b.head? ≠ some '/') :
    normalise (join a b) = follow (normalise a) b := by
  rw [join, if_neg hb]
  by_cases hslash : a.getLast? = some '/'
  · rw [if_pos (Or.inr hslash)]
    obtain ⟨x, rfl⟩ := List.getLast?_eq_some_iff.1 hslash
    rw [List.append_assoc, List.singleton_append]
    cases x with
    | nil => rw [List.nil_append, List.nil_append, normalise_slash, normalise_slash, follow_nil]
    | cons c cs => rw [normalise_cut (by simp), normalise_cut (by simp), follow_nil]
  · rw [if_neg (by simp [ha, hslash]), normalise_cut ha]

end Path
end Slakshna

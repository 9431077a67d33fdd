import Slakshna.Lib.Tags

/-! A pattern matched from the front of a text, by literals and by runs of a class of characters, and
its search from left to right. -/
namespace Slakshna.Scan
open Tags
variable {X A : Type*}

def literal [DecidableEq X] (lit s : List X) : Option (List X) :=
  if lit <+: s then some (s.drop lit.length) else none

def run (p : X → Bool) (s : List X) : Option (List X × List X) :=
  match s.takeWhile p with
  | [] => none
  | c :: cs => some (c :: cs, s.dropWhile p)

def search (matchHere : List X → Option A) : List X → Option A
  | [] => matchHere []
  | c :: s =>
    match matchHere (c :: s) with
    | some a => some a
    | none => search matchHere s

@[simp] theorem literal_append [DecidableEq X] (lit s : List X) : literal lit (lit ++ s) = some s := by
  rw [literal, if_pos (List.prefix_append lit s), List.drop_left]

theorem front_of_literal [DecidableEq X] {lit s rest : List X} (h : literal lit s = some rest) :
    lit <+: s := by
  by_contra hfront
  rw [literal, if_neg hfront] at h
  cases h

theorem run_append {p : X → Bool} {cs s : List X} (hne : cs ≠ []) (hcs : ∀ c ∈ cs, p c)
    (hs : ∀ c ∈ s.head?, ¬p c) : run p (cs ++ s) = some (cs, s) := by
  have hstop : s.takeWhile p = [] ∧ s.dropWhile p = s := by
    cases s with
    | nil => exact ⟨rfl, rfl⟩
    | cons c s =>
      have hc : ¬p c := hs c rfl
      exact ⟨List.takeWhile_cons_of_neg hc, List.dropWhile_cons_of_neg hc⟩
  have htake : (cs ++ s).takeWhile p = cs := by
    rw [List.takeWhile_append_of_pos hcs, hstop.1, List.append_nil]
  have hdrop : (cs ++ s).dropWhile p = s := by
    rw [List.dropWhile_append_of_pos hcs, hstop.2]
  obtain ⟨c, cs, rfl⟩ := List.exists_cons_of_ne_nil hne
  rw [run, htake, hdrop]

theorem search_of_match {matchHere : List X → Option A} {s : List X} {a : A}
    (h : matchHere s = some a) : search matchHere s = some a := by
  cases s with
  | nil => exact h
  | cons c s => rw [search, h]

theorem search_skips {mark : X} {g : Tag X mark} {matchHere : List X → Option A}
    (hmatch : ∀ s a, matchHere s = some a → g.text <+: s) {x y : List X} (h : g.Skips x y) :
    search matchHere (x ++ y) = search matchHere y := by
  induction x with
  | nil => rfl
  | cons c x ih =>
    obtain ⟨hhere, hlater⟩ := Tag.skips_cons.1 h
    rw [List.cons_append, search]
    cases hfound : matchHere (c :: (x ++ y)) with
    | none => exact ih hlater
    | some a => exact absurd (hmatch _ a hfound) hhere

end Slakshna.Scan

import Slakshna.Lib.Decimal
import Slakshna.Lib.FileTree
import Slakshna.Lib.Lowest

/-! Checkpoints of a training run on disk: how one is saved and old ones are pruned, as system calls
below the save directory. The state of a model or an optimizer is the shards that are written of it.
One process saves. -/
namespace Slakshna.Checkpoint
open Decimal FileTree
variable {S L : Type}

abbrev Name := List Char

def stepPrefix : Name := ['s', 't', 'e', 'p', '_']

/-- `step_{step:07d}` -/
def stepName (step : ℕ) : Name :=
  stepPrefix ++ (List.replicate (7 - (Nat.toDigits 10 step).length) '0' ++ Nat.toDigits 10 step)

def tmpName (step : ℕ) : Name := stepName step ++ ['.', 't', 'm', 'p']

def modelName : Name := ['m', 'o', 'd', 'e', 'l']

def optimName : Name := ['o', 'p', 't', 'i', 'm']

def metaName : Name := ['m', 'e', 't', 'a', '.', 'j', 's', 'o', 'n']

def completeName : Name := ['.', 'c', 'o', 'm', 'p', 'l', 'e', 't', 'e']

/-- The number that `_STEP_RE.search` finds: `step_(\d+)$` where anchored, `step_(\d+)` otherwise. -/
def searchStep (anchored : Bool) : Name → Option ℕ
  | [] => none
  | c :: cs =>
    let digits := ((c :: cs).drop 5).takeWhile isDecimal
    let rest := (c :: cs).drop (5 + digits.length)
    if stepPrefix <+: c :: cs ∧ digits ≠ [] ∧ (anchored = true → rest = [] ∨ rest = ['\n']) then
      some (ofDecimals digits)
    else searchStep anchored cs

inductive Content (S L : Type) where
  | empty
  | shard (data : S)
  | metaJson (step : ℕ) (avgLoss : L)
  deriving DecidableEq

structure Save (S L : Type) where
  step : ℕ
  model : HashMap Name S
  optim : HashMap Name S
  avgLoss : L

abbrev Disk (S L : Type) := Tree Name (Content S L)

def dcpSave (p : List Name) (shards : HashMap Name S) : List (Op Name (Content S L)) :=
  .mkdir p :: shards.entries.flatMap (fun e =>
    [.write (p ++ [e.1]) .empty, .write (p ++ [e.1]) (.shard e.2)])

def clearTmp (order : DeleteOrder Name) (c : Save S L) : Phase Name (Content S L) := fun t =>
  if pathExists t [tmpName c.step] then rmtree order t [tmpName c.step] else []

def writeTmp (c : Save S L) : Phase Name (Content S L) := fun _ =>
  [.mkdir [], .mkdir [tmpName c.step]] ++ dcpSave [tmpName c.step, modelName] c.model ++
    dcpSave [tmpName c.step, optimName] c.optim

def clearPath (order : DeleteOrder Name) (c : Save S L) : Phase Name (Content S L) := fun t =>
  if pathExists t [stepName c.step] then rmtree order t [stepName c.step] else []

def renameTmp (c : Save S L) : Phase Name (Content S L) := fun _ =>
  [.rename [tmpName c.step] [stepName c.step]]

def finish (c : Save S L) : Phase Name (Content S L) := fun _ =>
  [.write [stepName c.step, metaName] .empty,
    .write [stepName c.step, metaName] (.metaJson c.step c.avgLoss),
    .write [stepName c.step, completeName] .empty]

def writePhases (order : DeleteOrder Name) (c : Save S L) : List (Phase Name (Content S L)) :=
  [clearTmp order c, writeTmp c, clearPath order c, renameTmp c, finish c]

def isCompleted (t : Disk S L) (name : Name) : Bool :=
  isDir t [name] && (searchStep true name).isSome && decide ([name, completeName] ∈ t)

def stepKey (name : Name) : ℕ := (searchStep true name).getD 0

/-- The completed checkpoints, oldest first; `iter` is the order of `iterdir`. -/
def candidates (iter : IterOrder Name) (t : Disk S L) : List Name :=
  Lowest.sortBy stepKey ((iter.arrange (children t [])).filter (isCompleted t))

def cleanupOldCheckpoints (iter : IterOrder Name) (order : DeleteOrder Name) (keepLastN : ℕ) :
    Phase Name (Content S L) := fun t =>
  if keepLastN = 0 then []
  else ((candidates iter t).take ((candidates iter t).length - keepLastN)).flatMap
    (fun name => rmtree order t [name])

structure Call (S L : Type) where
  save : Save S L
  keepLastN : ℕ
  iter : IterOrder Name
  order : DeleteOrder Name

def Call.phases (call : Call S L) : List (Phase Name (Content S L)) :=
  writePhases call.order call.save ++
    [cleanupOldCheckpoints call.iter call.order call.keepLastN]

def saveCheckpoint (call : Call S L) (t : Disk S L) : Disk S L := execAll call.phases t

def stepDigits (step : ℕ) : List Char :=
  List.replicate (7 - (Nat.toDigits 10 step).length) '0' ++ Nat.toDigits 10 step

theorem isDigit_of_mem_stepDigits {step : ℕ} {c : Char} (h : c ∈ stepDigits step) :
    c.isDigit = true := by
  cases List.mem_append.1 h with
  | inl h =>
    rw [List.eq_of_mem_replicate h]
    rfl
  | inr h => exact Nat.isDigit_of_mem_toDigits (by decide) (by decide) h

theorem stepDigits_ne_nil (step : ℕ) : stepDigits step ≠ [] :=
  List.append_ne_nil_of_right_ne_nil _ Nat.toDigits_ne_nil

theorem ofDecimals_stepDigits (step : ℕ) : ofDecimals (stepDigits step) = step := by
  rw [ofDecimals_eq (fun c hc => isDigit_of_mem_stepDigits hc), stepDigits,
    Nat.ofDigitChars_append, Nat.ofDigitChars_replicate_zero, Nat.mul_zero,
    Nat.ofDigitChars_ten_toDigits]

theorem searchStep_digits (anchored : Bool) (step : ℕ) (tail : List Char)
    (htail : tail.takeWhile isDecimal = []) : searchStep anchored (stepName step ++ tail) =
      if anchored = true → tail = [] ∨ tail = ['\n'] then some step
      else searchStep anchored ((stepName step ++ tail).drop 1) := by
  have hdrop : (stepName step ++ tail).drop 5 = stepDigits step ++ tail := rfl
  have hdigits : (stepDigits step ++ tail).takeWhile isDecimal = stepDigits step := by
    rw [List.takeWhile_append_of_pos
        (fun c hc => isDecimal_of_isDigit (isDigit_of_mem_stepDigits hc)), htail, List.append_nil]
  have hrest : (stepName step ++ tail).drop (5 + (stepDigits step).length) = tail := by
    rw [← List.drop_drop, hdrop, List.drop_left]
  have hcons : stepName step ++ tail = 's' :: (stepName step ++ tail).drop 1 := rfl
  have hinitial : stepPrefix <+: stepName step ++ tail :=
    ⟨stepDigits step ++ tail, (List.append_assoc _ _ _).symm⟩
  rw [hcons, searchStep, ← hcons, hdrop, hdigits, hrest, ofDecimals_stepDigits]
  simp only [hinitial, stepDigits_ne_nil, ne_eq, not_false_eq_true, true_and]

theorem searchStep_stepName (anchored : Bool) (step : ℕ) :
    searchStep anchored (stepName step) = some step := by
  have hsearch := searchStep_digits anchored step [] rfl
  rw [List.append_nil] at hsearch
  rw [hsearch, if_pos (fun _ => .inl rfl)]

theorem searchStep_none {cs : List Char} (h : 's' ∉ cs) (anchored : Bool) :
    searchStep anchored cs = none := by
  induction cs with
  | nil => rfl
  | cons c cs ih =>
    obtain ⟨hc, hcs⟩ := not_or.1 (fun hs => h (List.mem_cons.2 hs))
    have hinitial : ¬stepPrefix <+: c :: cs := fun hp => hc (List.cons_prefix_cons.1 hp).1
    rw [searchStep, if_neg (fun hp => hinitial hp.1)]
    exact ih hcs

theorem searchStep_tmpName (step : ℕ) : searchStep true (tmpName step) = none := by
  rw [tmpName, searchStep_digits true step _ (by decide), if_neg (by decide)]
  apply searchStep_none
  have hdigits : 's' ∉ stepDigits step := by
    intro hs
    exact absurd (isDigit_of_mem_stepDigits hs) (by decide)
  have hdrop : (stepName step ++ ['.', 't', 'm', 'p']).drop 1 =
      ['t', 'e', 'p', '_'] ++ (stepDigits step ++ ['.', 't', 'm', 'p']) := by
    rw [stepName, stepPrefix, stepDigits]
    simp
  rw [hdrop]
  simp [hdigits]

theorem searchStep_tmpName_unanchored (step : ℕ) : searchStep false (tmpName step) = some step := by
  rw [tmpName, searchStep_digits false step _ (by decide), if_pos (fun h => by cases h)]

theorem stepName_injective : Function.Injective stepName := by
  intro m n h
  have hsearch := congrArg (searchStep true) h
  rw [searchStep_stepName, searchStep_stepName] at hsearch
  exact Option.some.inj hsearch

end Slakshna.Checkpoint

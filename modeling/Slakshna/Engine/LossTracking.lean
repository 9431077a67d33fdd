import Mathlib.Data.Rat.Cast.Order
import Mathlib.Tactic.NormNum
import Slakshna.Inference.Param2
import Slakshna.Lib.Decimal
import Slakshna.Lib.Run
import Slakshna.Lib.Scan

/-! The losses of a sweep. Each process appends a row to one csv file for every training step that its
trainer prints. The file stays over the rounds, and each process reads its own loss back from it. -/
namespace Slakshna.LossTracking
open Decimal Tags Scan

abbrev Text := List Char

def fixed : ℕ → ℕ → Text
  | 0, _ => []
  | width + 1, n => fixed width (n / 10) ++ [Nat.digitChar (n % 10)]

inductive Loss where
  | number (negative : Bool) (units : ℕ)
  | inf (negative : Bool)
  | nan
  deriving DecidableEq

def sign (negative : Bool) : Text := if negative then ['-'] else []

/-- `f"{window_loss:.4f}"` -/
def Loss.fmt : Loss → Text
  | .number negative units =>
    sign negative ++ (Nat.toDigits 10 (units / 10000) ++ '.' :: fixed 4 units)
  | .inf negative => sign negative ++ ['i', 'n', 'f']
  | .nan => ['n', 'a', 'n']

def epochTag : Tag Char '[' := ⟨['e', 'p', 'o', 'c', 'h'], by decide⟩

def stepText : Text := [']', '[', 's', 't', 'e', 'p']

def lossText : Text := ['l', 'o', 's', 's', '=']

/-- The line of a training step; what the log puts before the message has no `[epoch` in it. -/
structure StepLine where
  before : Text
  epoch : ℕ
  step : ℕ
  loss : Loss
  after : Text
  quiet : ¬epochTag.text <:+: before

/-- `[epoch {epoch}][step {step}] loss={window_loss:.4f} lr=` and what follows. -/
def StepLine.message (l : StepLine) : Text :=
  epochTag.text ++ (' ' :: (Nat.toDigits 10 l.epoch ++ (stepText ++ (' ' ::
    (Nat.toDigits 10 l.step ++ ([']'] ++ (' ' :: (lossText ++ (l.loss.fmt ++
      (' ' :: 'l' :: 'r' :: '=' :: l.after))))))))))

inductive Line where
  | step (l : StepLine)
  | other (text : Text)

def Line.text : Line → Text
  | .step l => l.before ++ l.message
  | .other text => text

def Line.loss : Line → Option Loss
  | .step l => some l.loss
  | .other _ => none

/-! The pattern `\[epoch\s+(\d+)\]\[step\s+(\d+)\]\s+loss=([0-9.]+)`. -/

def inLoss (c : Char) : Bool := c.isDigit || c = '.'

def matchHere (s : Text) : Option (Text × Text × Text) := do
  let s ← literal epochTag.text s
  let (_, s) ← run Param2.isspace s
  let (epoch, s) ← run isDecimal s
  let s ← literal stepText s
  let (_, s) ← run Param2.isspace s
  let (step, s) ← run isDecimal s
  let s ← literal [']'] s
  let (_, s) ← run Param2.isspace s
  let s ← literal lossText s
  let (loss_val, _) ← run inLoss s
  return (epoch, step, loss_val)

structure Row where
  timestamp : Text
  nodeId : Text
  epoch : Text
  step : Text
  loss : Text
  deriving DecidableEq

def Row.fields (r : Row) : List Text := [r.timestamp, r.nodeId, r.epoch, r.step, r.loss]

def lossKey : Text := ['l', 'o', 's', 's']

def header : Row where
  timestamp := ['t', 'i', 'm', 'e', 's', 't', 'a', 'm', 'p']
  nodeId := ['n', 'o', 'd', 'e', '_', 'i', 'd']
  epoch := ['e', 'p', 'o', 'c', 'h']
  step := ['s', 't', 'e', 'p']
  loss := lossKey

structure Datetime where
  year : ℕ
  month : ℕ
  day : ℕ
  hour : ℕ
  minute : ℕ
  second : ℕ

def Datetime.strftime (t : Datetime) : Text :=
  Nat.toDigits 10 t.year ++ '-' :: (fixed 2 t.month ++ '-' :: (fixed 2 t.day ++ ' ' ::
    (fixed 2 t.hour ++ ':' :: (fixed 2 t.minute ++ ':' :: fixed 2 t.second))))

def nodeName (i : ℕ) : Text := ['n', 'o', 'd', 'e', '-'] ++ Nat.toDigits 10 i

structure Entry where
  writer : ℕ
  row : Row
  deriving DecidableEq

/-- What a `csv.DictReader` has under a key; of equal keys the last counts. -/
def get (fieldnames row : Row) (key : Text) : Option Text :=
  (fieldnames.fields.zip row.fields).reverse.lookup key

/-- `float` of digits with at most one dot; other words raise. -/
def float (text : Text) : Option ℚ :=
  let whole := text.takeWhile Char.isDigit
  match text.dropWhile Char.isDigit with
  | [] => if whole = [] then none else some ((Nat.ofDigitChars 10 whole 0 : ℕ) : ℚ)
  | c :: fraction =>
    if c = '.' ∧ fraction.all Char.isDigit ∧ whole ++ fraction ≠ [] then
      some ((Nat.ofDigitChars 10 (whole ++ fraction) 0 : ℕ) / (10 ^ fraction.length : ℕ) : ℚ)
    else none

/-- The rows behind the field names; the value so far is kept when `float` raises. -/
def lastLoss (fieldnames : Row) : Option ℚ → List Entry → Option ℚ
  | finalLoss, [] => finalLoss
  | finalLoss, e :: rows =>
    match get fieldnames e.row lossKey with
    | none | some [] => lastLoss fieldnames finalLoss rows
    | some text =>
      match float text with
      | some loss => lastLoss fieldnames (some loss) rows
      | none => finalLoss

inductive Perplexity where
  | exp (finalLoss : ℚ)
  | inf
  deriving DecidableEq

def perplexity (finalLoss : ℚ) : Perplexity := if finalLoss < 20 then .exp finalLoss else .inf

def extractTrainingMetrics : Option (List Entry) → Option (ℚ × Perplexity)
  | none | some [] => none
  | some (fieldnames :: rows) =>
    (lastLoss fieldnames.row none rows).map (fun finalLoss => (finalLoss, perplexity finalLoss))

inductive Phase where
  | idle
  | checked (csvExists : Bool)
  | tracking (pending : Bool)
  | trained
  | finished (metrics : Option (ℚ × Perplexity))
  | failed
  deriving DecidableEq

structure Process where
  phase : Phase
  printed : Option Loss
  deriving DecidableEq

structure State where
  file : Option (List Entry)
  procs : ℕ → Process

/-- What a process does next: `os.path.isfile`, `open`, a line of its trainer, `process.wait`, and the
read of `extract_training_metrics` that comes to the end of the file. -/
inductive Event where
  | isfile (p : ℕ)
  | append (p : ℕ)
  | line (p : ℕ) (now : Datetime) (l : Line)
  | wait (p : ℕ) (returncode : ℤ)
  | extract (p : ℕ)

namespace State

def init : State := ⟨none, fun _ => ⟨.idle, none⟩⟩

def rows (s : State) : List Entry := s.file.getD []

def write (s : State) (new : List Entry) : State := { s with file := some (s.rows ++ new) }

def enter (s : State) (p : ℕ) (phase : Phase) : State :=
  { s with procs := Function.update s.procs p { s.procs p with phase := phase } }

def print (s : State) (p : ℕ) (loss : Option Loss) : State :=
  { s with
    procs := Function.update s.procs p { s.procs p with printed := loss.or (s.procs p).printed } }

def flushed (p : ℕ) (pending : Bool) : List Entry := if pending then [⟨p, header⟩] else []

def step (node : ℕ → ℕ) (s : State) : Event → State
  | .isfile p =>
    match (s.procs p).phase with
    | .idle => s.enter p (.checked s.file.isSome)
    | _ => s
  | .append p =>
    match (s.procs p).phase with
    | .checked csvExists => (s.write []).enter p (.tracking !csvExists)
    | _ => s
  | .line p now l =>
    match (s.procs p).phase with
    | .tracking pending =>
      match search matchHere l.text with
      | some (epoch, step, loss_val) =>
        let row : Row := ⟨now.strftime, nodeName (node p), epoch, step, loss_val⟩
        ((s.print p l.loss).write (flushed p pending ++ [⟨p, row⟩])).enter p (.tracking false)
      | none => s.print p l.loss
    | _ => s
  | .wait p returncode =>
    match (s.procs p).phase with
    | .tracking pending =>
      (s.write (flushed p pending)).enter p (if returncode = 0 then .trained else .failed)
    | _ => s
  | .extract p =>
    match (s.procs p).phase with
    | .trained => s.enter p (.finished (extractTrainingMetrics s.file))
    | _ => s

@[simp] theorem rows_write (s : State) (new : List Entry) : (s.write new).rows = s.rows ++ new := rfl

@[simp] theorem procs_write (s : State) (new : List Entry) : (s.write new).procs = s.procs := rfl

@[simp] theorem rows_enter (s : State) (p : ℕ) (phase : Phase) : (s.enter p phase).rows = s.rows := rfl

@[simp] theorem rows_print (s : State) (p : ℕ) (loss : Option Loss) : (s.print p loss).rows = s.rows :=
  rfl

theorem procs_enter (s : State) (p q : ℕ) (phase : Phase) : (s.enter p phase).procs q =
    if q = p then { s.procs q with phase := phase } else s.procs q := by
  simp only [enter, Function.update_apply]
  split
  · next hq => rw [hq]
  · rfl

theorem procs_print (s : State) (p q : ℕ) (loss : Option Loss) : (s.print p loss).procs q =
    if q = p then { s.procs q with printed := loss.or (s.procs q).printed } else s.procs q := by
  simp only [print, Function.update_apply]
  split
  · next hq => rw [hq]
  · rfl

@[simp] theorem printed_enter (s : State) (p q : ℕ) (phase : Phase) :
    ((s.enter p phase).procs q).printed = (s.procs q).printed := by
  rw [procs_enter]
  split <;> rfl

@[simp] theorem phase_enter (s : State) (p q : ℕ) (phase : Phase) :
    ((s.enter p phase).procs q).phase = if q = p then phase else (s.procs q).phase := by
  rw [procs_enter]
  split <;> rfl

@[simp] theorem phase_print (s : State) (p q : ℕ) (loss : Option Loss) :
    ((s.print p loss).procs q).phase = (s.procs q).phase := by
  rw [procs_print]
  split <;> rfl

@[simp] theorem printed_print (s : State) (p q : ℕ) (loss : Option Loss) :
    ((s.print p loss).procs q).printed =
      if q = p then loss.or (s.procs q).printed else (s.procs q).printed := by
  rw [procs_print]
  split <;> rfl

theorem print_none (s : State) (p : ℕ) : s.print p none = s := by
  simp [print]

end State

theorem isDigit_of_mem_fixed {width n : ℕ} {c : Char} (h : c ∈ fixed width n) : c.isDigit := by
  induction width generalizing n with
  | zero => cases h
  | succ width ih =>
    cases List.mem_append.1 h with
    | inl h => exact ih h
    | inr h =>
      rw [List.mem_singleton.1 h, Nat.isDigit_digitChar]
      exact decide_eq_true (Nat.mod_lt n (by decide))

@[simp] theorem length_fixed (width n : ℕ) : (fixed width n).length = width := by
  induction width generalizing n with
  | zero => rfl
  | succ width ih => rw [fixed, List.length_append, ih, List.length_singleton]

theorem ofDigitChars_fixed (width n : ℕ) :
    Nat.ofDigitChars 10 (fixed width n) 0 = n % 10 ^ width := by
  induction width generalizing n with
  | zero => simp [fixed, Nat.mod_one]
  | succ width ih =>
    rw [fixed, Nat.ofDigitChars_append, ih,
      Nat.ofDigitChars_cons_digitChar_of_lt_ten (Nat.mod_lt n (by decide)), Nat.ofDigitChars_nil,
      pow_succ', Nat.mod_mul]
    omega

theorem isDigit_of_mem_toDigits {n : ℕ} {c : Char} (h : c ∈ Nat.toDigits 10 n) : c.isDigit :=
  Nat.isDigit_of_mem_toDigits (by decide) (by decide) h

def plain (units : ℕ) : Loss := .number false units

theorem fmt_plain (units : ℕ) :
    (plain units).fmt = Nat.toDigits 10 (units / 10000) ++ '.' :: fixed 4 units := rfl

theorem fmt_ne_nil (units : ℕ) : (plain units).fmt ≠ [] := by
  rw [fmt_plain]
  exact List.append_ne_nil_of_left_ne_nil Nat.toDigits_ne_nil _

theorem inLoss_of_mem_fmt {units : ℕ} {c : Char} (h : c ∈ (plain units).fmt) : inLoss c := by
  have hdigit : ∀ c : Char, c.isDigit → inLoss c := by
    intro c hc
    rw [inLoss, hc]
    rfl
  rw [fmt_plain, List.mem_append, List.mem_cons] at h
  rcases h with h | rfl | h
  · exact hdigit c (isDigit_of_mem_toDigits h)
  · rfl
  · exact hdigit c (isDigit_of_mem_fixed h)

theorem float_fmt (units : ℕ) : float (plain units).fmt = some ((units : ℚ) / 10000) := by
  have hdot : ¬Char.isDigit '.' := by decide
  have htake : (plain units).fmt.takeWhile Char.isDigit = Nat.toDigits 10 (units / 10000) := by
    rw [fmt_plain, List.takeWhile_append_of_pos (fun c hc => isDigit_of_mem_toDigits hc),
      List.takeWhile_cons_of_neg hdot, List.append_nil]
  have hdrop : (plain units).fmt.dropWhile Char.isDigit = '.' :: fixed 4 units := by
    rw [fmt_plain, List.dropWhile_append_of_pos (fun c hc => isDigit_of_mem_toDigits hc),
      List.dropWhile_cons_of_neg hdot]
  have hfraction : (fixed 4 units).all Char.isDigit :=
    List.all_eq_true.2 (fun c hc => isDigit_of_mem_fixed hc)
  have hne : Nat.toDigits 10 (units / 10000) ++ fixed 4 units ≠ [] :=
    List.append_ne_nil_of_left_ne_nil Nat.toDigits_ne_nil _
  have hvalue : Nat.ofDigitChars 10 (Nat.toDigits 10 (units / 10000) ++ fixed 4 units) 0 = units := by
    rw [Nat.ofDigitChars_append, Nat.ofDigitChars_ten_toDigits, Nat.ofDigitChars_eq_ofDigitChars_zero,
      length_fixed, ofDigitChars_fixed]
    omega
  rw [float, htake, hdrop]
  simp only [hfraction, hne, hvalue, length_fixed, ne_eq, not_false_eq_true, and_self, if_true]
  norm_num

theorem front_of_matchHere {s : Text} {a : Text × Text × Text} (h : matchHere s = some a) :
    epochTag.text <+: s := by
  rw [matchHere, Option.bind_eq_bind, Option.bind_eq_some_iff] at h
  obtain ⟨rest, hrest, -⟩ := h
  exact front_of_literal hrest

theorem run_digits (n : ℕ) {s : Text} (hs : ∀ c ∈ s.head?, ¬isDecimal c) :
    run isDecimal (Nat.toDigits 10 n ++ s) = some (Nat.toDigits 10 n, s) :=
  run_append Nat.toDigits_ne_nil (fun _ hc => isDecimal_of_isDigit (isDigit_of_mem_toDigits hc)) hs

theorem not_isspace_of_isDigit {c : Char} (h : c.isDigit) : ¬Param2.isspace c := by
  have hrange : 48 ≤ c.toNat ∧ c.toNat ≤ 57 := by
    rw [Char.isDigit, Bool.and_eq_true, decide_eq_true_eq, decide_eq_true_eq] at h
    exact ⟨h.1, h.2⟩
  simp only [Param2.isspace, Bool.or_eq_true, Bool.and_eq_true, decide_eq_true_eq, beq_iff_eq]
  omega

theorem run_space {s : Text} (hs : ∀ c ∈ s.head?, ¬Param2.isspace c) :
    run Param2.isspace (' ' :: s) = some ([' '], s) := by
  refine run_append (List.cons_ne_nil ' ' []) ?_ hs
  intro c hc
  rw [List.mem_singleton.1 hc]
  decide

theorem run_space_digits (n : ℕ) (s : Text) :
    run Param2.isspace (' ' :: (Nat.toDigits 10 n ++ s)) = some ([' '], Nat.toDigits 10 n ++ s) := by
  apply run_space
  intro c hc
  rw [List.head?_append_of_ne_nil _ Nat.toDigits_ne_nil] at hc
  exact not_isspace_of_isDigit (isDigit_of_mem_toDigits (List.mem_of_mem_head? hc))

theorem matchHere_message {l : StepLine} {units : ℕ} (h : l.loss = plain units) :
    matchHere l.message =
      some (Nat.toDigits 10 l.epoch, Nat.toDigits 10 l.step, (plain units).fmt) := by
  have hepoch : ∀ s, run isDecimal (Nat.toDigits 10 l.epoch ++ (stepText ++ s)) =
      some (Nat.toDigits 10 l.epoch, stepText ++ s) :=
    fun s => run_digits l.epoch (by rintro c ⟨⟩; decide)
  have hstep : ∀ s, run isDecimal (Nat.toDigits 10 l.step ++ ([']'] ++ s)) =
      some (Nat.toDigits 10 l.step, [']'] ++ s) :=
    fun s => run_digits l.step (by rintro c ⟨⟩; decide)
  have hspace : ∀ s, run Param2.isspace (' ' :: (lossText ++ s)) = some ([' '], lossText ++ s) :=
    fun s => run_space (by rintro c ⟨⟩; decide)
  have hloss : ∀ s, run inLoss ((plain units).fmt ++ ' ' :: s) =
      some ((plain units).fmt, ' ' :: s) := by
    intro s
    apply run_append
    · exact fmt_ne_nil units
    · exact fun c hc => inLoss_of_mem_fmt hc
    · rintro c ⟨⟩
      decide
  rw [matchHere, StepLine.message, h]
  simp only [literal_append, run_space_digits, hepoch, hstep, hspace, hloss, Option.bind_eq_bind,
    Option.bind_some]
  rfl

theorem search_step {l : StepLine} {units : ℕ} (h : l.loss = plain units) :
    search matchHere (Line.step l).text =
      some (Nat.toDigits 10 l.epoch, Nat.toDigits 10 l.step, (plain units).fmt) := by
  have hskips : epochTag.Skips l.before l.message := by
    apply Tag.skips_of_head l.quiet
    rintro c ⟨⟩
    rfl
  rw [Line.text, search_skips (fun _ _ => front_of_matchHere) hskips]
  exact search_of_match (matchHere_message h)

def recorded (now : Datetime) (i epoch step units : ℕ) : Row :=
  ⟨now.strftime, nodeName i, Nat.toDigits 10 epoch, Nat.toDigits 10 step, (plain units).fmt⟩

def Row.Recorded (r : Row) : Prop := ∃ now i epoch step units, r = recorded now i epoch step units

theorem get_header (r : Row) : get header r lossKey = some r.loss := rfl

theorem ne_lossKey {text : Text} {c : Char} (hc : c ∈ text) (hkey : c ∉ lossKey) :
    lossKey ≠ text := by
  rintro rfl
  exact hkey hc

theorem digits_ne_lossKey (n : ℕ) : lossKey ≠ Nat.toDigits 10 n := by
  intro h
  have hl : 'l' ∈ Nat.toDigits 10 n := h ▸ List.mem_cons_self
  exact absurd (isDigit_of_mem_toDigits hl) (by decide)

theorem fmt_ne_lossKey (units : ℕ) : lossKey ≠ (plain units).fmt := by
  apply ne_lossKey (c := '.') _ (by decide)
  simp [fmt_plain]

theorem get_recorded {fieldnames : Row} (h : fieldnames.Recorded) (r : Row) :
    get fieldnames r lossKey = none := by
  obtain ⟨now, i, epoch, step, units, rfl⟩ := h
  have htime : lossKey ≠ now.strftime := by
    apply ne_lossKey (c := '-') _ (by decide)
    simp [Datetime.strftime]
  have hnode : lossKey ≠ nodeName i := by
    apply ne_lossKey (c := '-') _ (by decide)
    simp [nodeName]
  rw [get, List.lookup_eq_none_iff]
  intro e he
  have hfield : e.1 ∈ (recorded now i epoch step units).fields :=
    (List.of_mem_zip (List.mem_reverse.1 he)).1
  simp only [recorded, Row.fields, List.mem_cons, List.not_mem_nil, or_false] at hfield
  rw [bne_iff_ne]
  rcases hfield with hfield | hfield | hfield | hfield | hfield <;> rw [hfield]
  · exact htime
  · exact hnode
  · exact digits_ne_lossKey epoch
  · exact digits_ne_lossKey step
  · exact fmt_ne_lossKey units

theorem Row.Recorded.ne_header {r : Row} (h : r.Recorded) : r ≠ header := by
  obtain ⟨now, i, epoch, step, units, rfl⟩ := h
  intro heq
  exact fmt_ne_lossKey units (congrArg Row.loss heq).symm

def Entry.loss (e : Entry) : Option ℚ := float e.row.loss

def reached : List Entry → List Entry
  | [] => []
  | first :: rows => if first.row = header then rows.takeWhile (fun e => e.row ≠ header) else []

theorem lastLoss_header {rows : List Entry} (h : ∀ e ∈ rows, e.row = header ∨ e.row.Recorded)
    (finalLoss : Option ℚ) : lastLoss header finalLoss rows =
      ((rows.takeWhile (fun e => e.row ≠ header)).getLast?.map Entry.loss).getD finalLoss := by
  induction rows generalizing finalLoss with
  | nil => rfl
  | cons e rows ih =>
    cases h e List.mem_cons_self with
    | inl hheader =>
      rw [List.takeWhile_cons_of_neg (by simp [hheader]), lastLoss, get_header, hheader]
      rfl
    | inr hrecorded =>
      have hstep : lastLoss header finalLoss (e :: rows) = lastLoss header e.loss rows := by
        obtain ⟨now, i, epoch, step, units, hrow⟩ := hrecorded
        have hloss : e.row.loss = (plain units).fmt := congrArg Row.loss hrow
        obtain ⟨c, cs, hcons⟩ := List.exists_cons_of_ne_nil (fmt_ne_nil units)
        rw [lastLoss, get_header, Entry.loss, hloss, float_fmt, hcons]
        change (match float (c :: cs) with
          | some loss => lastLoss header (some loss) rows
          | none => finalLoss) = _
        rw [← hcons, float_fmt]
      rw [hstep, ih (fun e he => h e (List.mem_cons_of_mem _ he)),
        List.takeWhile_cons_of_pos (by simp [hrecorded.ne_header]), List.getLast?_cons,
        Option.map_some, Option.getD_some, Option.getD_map]

theorem lastLoss_recorded {fieldnames : Row} (h : fieldnames.Recorded) (finalLoss : Option ℚ)
    (rows : List Entry) : lastLoss fieldnames finalLoss rows = finalLoss := by
  induction rows with
  | nil => rfl
  | cons e rows ih =>
    rw [lastLoss, get_recorded h]
    exact ih

theorem extract_reached {file : Option (List Entry)}
    (h : ∀ e ∈ file.getD [], e.row = header ∨ e.row.Recorded) :
    (extractTrainingMetrics file).map Prod.fst =
      (reached (file.getD [])).getLast?.bind Entry.loss := by
  cases file with
  | none => rfl
  | some rows =>
    cases rows with
    | nil => rfl
    | cons first rows =>
      have hrows : ∀ e ∈ rows, e.row = header ∨ e.row.Recorded :=
        fun e he => h e (List.mem_cons_of_mem _ he)
      have hmap : ∀ loss : Option ℚ,
          (loss.map (fun finalLoss => (finalLoss, perplexity finalLoss))).map Prod.fst = loss := by
        intro loss
        cases loss with
        | none => rfl
        | some loss => rfl
      rw [extractTrainingMetrics, hmap, Option.getD_some, reached]
      cases h first List.mem_cons_self with
      | inl hheader =>
        rw [if_pos hheader, hheader, lastLoss_header hrows]
        cases (rows.takeWhile (fun e => e.row ≠ header)).getLast? with
        | none => rfl
        | some e => rfl
      | inr hrecorded =>
        rw [if_neg hrecorded.ne_header, lastLoss_recorded hrecorded]
        rfl

def signed (negative : Bool) (units : ℕ) : ℚ :=
  if negative then -((units : ℚ) / 10000) else (units : ℚ) / 10000

inductive Reports : Option Loss → Option ℚ → Prop
  | none : Reports none none
  | number (negative : Bool) (units : ℕ) :
    Reports (some (.number negative units)) (some (signed negative units))

def State.Truthful (s : State) : Prop :=
  ∀ p metrics, (s.procs p).phase = .finished metrics →
    Reports (s.procs p).printed (metrics.map Prod.fst)

def own (p : ℕ) (rows : List Entry) : List Entry :=
  rows.filter (fun e => e.writer = p ∧ e.row ≠ header)

/-- A step is printed with a plain loss and no other line looks like one; who reads comes last to the
last row that it has appended itself, or to none if it has appended none. -/
def Undisturbed (s : State) : Event → Prop
  | .line _ _ (.step l) => ∃ units, l.loss = plain units
  | .line _ _ (.other text) => search matchHere text = none
  | .extract p =>
    (s.procs p).phase = .trained → (reached s.rows).getLast? = (own p s.rows).getLast?
  | _ => True

inductive Traced : Option Loss → Option Entry → Prop
  | none : Traced none none
  | row (units : ℕ) (e : Entry) (h : e.row.loss = (plain units).fmt) :
    Traced (some (plain units)) (some e)

structure Inv (s : State) : Prop where
  rows : ∀ e ∈ s.rows, e.row = header ∨ e.row.Recorded
  traced : ∀ p, Traced (s.procs p).printed (own p s.rows).getLast?
  truthful : s.Truthful

theorem Traced.reports {printed : Option Loss} {last : Option Entry} (h : Traced printed last) :
    Reports printed (last.bind Entry.loss) := by
  cases h with
  | none => exact .none
  | row units e h =>
    have hloss : e.loss = some (signed false units) := by
      rw [Entry.loss, h]
      exact float_fmt units
    rw [Option.bind_some, hloss]
    exact .number false units

theorem own_append (p : ℕ) (rows new : List Entry) : own p (rows ++ new) = own p rows ++ own p new :=
  List.filter_append rows new

@[simp] theorem own_flushed (p q : ℕ) (pending : Bool) : own q (State.flushed p pending) = [] := by
  cases pending with
  | false => rfl
  | true => simp [own, State.flushed]

theorem own_singleton {p q : ℕ} {row : Row} (h : row ≠ header) :
    own q [⟨p, row⟩] = if q = p then [⟨p, row⟩] else [] := by
  by_cases hq : q = p
  · subst hq
    simp [own, h]
  · simp [own, hq, Ne.symm hq]

theorem inv_init : Inv State.init where
  rows := nofun
  traced _ := .none
  truthful := nofun

theorem Inv.enter {s : State} (h : Inv s) {p : ℕ} {phase : Phase}
    (hphase : ∀ metrics, phase = .finished metrics →
      Reports (s.procs p).printed (metrics.map Prod.fst)) : Inv (s.enter p phase) where
  rows := h.rows
  traced q := by
    rw [State.printed_enter, State.rows_enter]
    exact h.traced q
  truthful := by
    intro q metrics hq
    rw [State.phase_enter] at hq
    rw [State.printed_enter]
    split at hq
    · next hqp =>
      subst hqp
      exact hphase metrics hq
    · exact h.truthful q metrics hq

theorem Inv.flush {s : State} (h : Inv s) (p : ℕ) (pending : Bool) :
    Inv (s.write (State.flushed p pending)) where
  rows := by
    intro e he
    rw [State.rows_write, List.mem_append] at he
    cases he with
    | inl he => exact h.rows e he
    | inr he =>
      cases pending with
      | false => cases he
      | true =>
        rw [List.mem_singleton.1 he]
        exact .inl rfl
  traced q := by
    rw [State.rows_write, own_append, own_flushed, List.append_nil]
    exact h.traced q
  truthful := h.truthful

theorem Inv.record {s : State} (h : Inv s) {p : ℕ}
    (hp : ∀ metrics, (s.procs p).phase ≠ .finished metrics) (now : Datetime) (i epoch step units : ℕ) :
    Inv ((s.print p (some (plain units))).write [⟨p, recorded now i epoch step units⟩]) where
  rows := by
    intro e he
    rw [State.rows_write, List.mem_append] at he
    cases he with
    | inl he => exact h.rows e he
    | inr he =>
      rw [List.mem_singleton.1 he]
      exact .inr ⟨now, i, epoch, step, units, rfl⟩
  traced q := by
    have hrow : Row.Recorded (recorded now i epoch step units) := ⟨now, i, epoch, step, units, rfl⟩
    rw [State.rows_write, State.rows_print, State.procs_write, State.printed_print, own_append,
      own_singleton hrow.ne_header]
    by_cases hq : q = p
    · rw [if_pos hq, if_pos hq, List.getLast?_concat]
      exact .row units _ rfl
    · rw [if_neg hq, if_neg hq, List.append_nil]
      exact h.traced q
  truthful := by
    intro q metrics hq
    rw [State.procs_write, State.phase_print] at hq
    have hqp : q ≠ p := by
      rintro rfl
      exact hp metrics hq
    rw [State.procs_write, State.printed_print, if_neg hqp]
    exact h.truthful q metrics hq

theorem Inv.read {s : State} (h : Inv s) {p : ℕ}
    (hlast : (reached s.rows).getLast? = (own p s.rows).getLast?) :
    Reports (s.procs p).printed ((extractTrainingMetrics s.file).map Prod.fst) := by
  rw [extract_reached h.rows]
  have hreports := (h.traced p).reports
  rw [← hlast] at hreports
  exact hreports

theorem Inv.line {node : ℕ → ℕ} {s : State} (h : Inv s) {p : ℕ} {now : Datetime} {l : Line}
    (hl : Undisturbed s (.line p now l)) : Inv (s.step node (.line p now l)) := by
  rw [State.step]
  split
  · next pending hphase =>
    cases l with
    | other text =>
      have hsearch : search matchHere (Line.other text).text = none := hl
      rw [hsearch, Line.loss, State.print_none]
      exact h
    | step l =>
      obtain ⟨units, hunits⟩ := hl
      have hsplit : ∀ row,
          (s.print p (some (plain units))).write (State.flushed p pending ++ [⟨p, row⟩]) =
            ((s.write (State.flushed p pending)).print p (some (plain units))).write [⟨p, row⟩] := by
        intro row
        simp [State.write, State.print, State.rows]
      have htracking : ∀ metrics,
          ((s.write (State.flushed p pending)).procs p).phase ≠ .finished metrics := by
        rw [State.procs_write, hphase]
        nofun
      have hrecord := (h.flush p pending).record htracking now (node p) l.epoch l.step units
      rw [search_step hunits]
      simp only [Line.loss, hunits]
      rw [hsplit]
      exact hrecord.enter nofun
  · exact h

theorem Inv.step {node : ℕ → ℕ} {s : State} (h : Inv s) {e : Event} (he : Undisturbed s e) :
    Inv (s.step node e) := by
  cases e with
  | isfile p =>
    rw [State.step]
    split
    · exact h.enter nofun
    · exact h
  | append p =>
    rw [State.step]
    split
    · exact (h.flush p false).enter nofun
    · exact h
  | line p now l => exact h.line he
  | wait p returncode =>
    rw [State.step]
    split
    · next pending _ =>
      apply (h.flush p pending).enter
      intro metrics hmetrics
      split at hmetrics <;> cases hmetrics
    · exact h
  | extract p =>
    rw [State.step]
    split
    · next hphase =>
      apply h.enter
      intro metrics hmetrics
      cases hmetrics
      exact h.read (he hphase)
    · exact h

/-- In an undisturbed run each process reads the loss that its own trainer printed last. -/
theorem truthful_of_undisturbed (node : ℕ → ℕ) {es : List Event}
    (h : Run.Along (State.step node) Undisturbed State.init es) (n : ℕ) :
    (Run.exec (State.step node) State.init (es.take n)).Truthful := by
  have hinv : Inv (Run.exec (State.step node) State.init (es.take n)) :=
    Run.invariant_take (fun _ _ hs he => hs.step he) inv_init h n
  exact hinv.truthful

theorem Reports.value {negative : Bool} {units : ℕ} {loss : ℚ}
    (h : Reports (some (.number negative units)) (some loss)) : loss = signed negative units := by
  cases h
  rfl

def logged (step units : ℕ) : Line :=
  .step ⟨['[', 'b', 'h', 'a', 's', 'k', 'e', 'r', 'a', ']', ' ', 'I', 'N', 'F', 'O', ' '], 0, step,
    plain units, ['1', 'e', '-', '4'], by decide⟩

def noon : Datetime := ⟨2026, 1, 1, 12, 0, 0⟩

def inTurn : List Event :=
  [.isfile 0, .append 0, .line 0 noon (logged 1 31415), .line 0 noon (logged 2 22678), .isfile 1,
    .append 1, .wait 0 0, .extract 0, .line 1 noon (logged 1 35000), .wait 1 0, .extract 1]

theorem truthful_of_undisturbed_inTurn :
    Run.Along (State.step id) Undisturbed State.init inTurn ∧
      (Run.exec (State.step id) State.init (inTurn.take 11)).Truthful := by
  have hes : Run.Along (State.step id) Undisturbed State.init inTurn := by
    refine ⟨trivial, trivial, ⟨31415, rfl⟩, ⟨22678, rfl⟩, trivial, trivial, trivial, ?_,
      ⟨35000, rfl⟩, trivial, ?_, trivial⟩
    · intro _
      decide +kernel
    · intro _
      decide +kernel
  exact ⟨hes, truthful_of_undisturbed id hes 11⟩

def overtaken : List Event :=
  [.isfile 0, .append 0, .line 0 noon (logged 1 22678), .isfile 1, .append 1,
    .line 1 noon (logged 1 35000), .wait 0 0, .extract 0]

/-- Node 0 reads the loss of node 1. -/
theorem overtaken_reads_neighbour :
    ¬(Run.exec (State.step id) State.init overtaken).Truthful := by
  intro h
  have hphase : ((Run.exec (State.step id) State.init overtaken).procs 0).phase =
      .finished (some (35000 / 10000, .exp (35000 / 10000))) := by decide +kernel
  have hprinted : ((Run.exec (State.step id) State.init overtaken).procs 0).printed =
      some (plain 22678) := by decide +kernel
  have hread := h 0 _ hphase
  rw [hprinted] at hread
  have hvalue := hread.value
  norm_num [signed] at hvalue

end Slakshna.LossTracking

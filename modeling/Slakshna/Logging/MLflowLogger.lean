import Slakshna.Lib.HashMap
import Slakshna.Lib.Run

/-! The MLflow logger: the training loop puts metric batches into a bounded queue, a worker thread takes
them out and writes them. Each access to the queue, the stop flag or the store is one step. -/
namespace Slakshna.MLflowLogger
variable {F : Type}

inductive FloatResult (F : Type) where
  | value (f : F)
  | typeOrValueError
  | otherError

structure Batch (F : Type) where
  metrics : List (String × FloatResult F)
  step : ℤ

def queueMaxsize : ℕ := 2048

/-- `nodePrefix` is the sanitised host name, on ranks that put it before their keys. -/
def translateKey (nodePrefix : Option String) (raw : String) : String :=
  let key := raw.map (fun c => if c = '/' then '_' else c)
  match nodePrefix with
  | none => key
  | some host => "node_" ++ host ++ "_" ++ key

/-- The values to write; none where another exception than those caught comes out. -/
def safeMetrics (nodePrefix : Option String) :
    List (String × FloatResult F) → HashMap String F → Option (HashMap String F)
  | [], safe => some safe
  | (rawKey, .value fv) :: rest, safe =>
    safeMetrics nodePrefix rest (safe.insert (translateKey nodePrefix rawKey) fv)
  | (_, .typeOrValueError) :: rest, safe => safeMetrics nodePrefix rest safe
  | (_, .otherError) :: _, _ => none

inductive FlushResult (F : Type) where
  | written (safe : HashMap String F)
  | skipped
  | raised

def flushOne (nodePrefix : Option String) (b : Batch F) (storeOk : Bool) : FlushResult F :=
  match safeMetrics nodePrefix b.metrics ∅ with
  | none => .raised
  | some safe => if safe.keys = [] then .skipped else if storeOk then .written safe else .raised

structure Entry (F : Type) where
  id : ℕ
  batch : Batch F

/-- Where a call of `log` stands: after `queue.Full` it has yet to take one out, then to put again. -/
inductive Caller (F : Type) where
  | idle
  | full (b : Batch F)
  | drained (b : Batch F)
  | finished

/-- Where the loop of `_pump` stands: its condition is two tests. -/
inductive Worker (F : Type) where
  | testStop
  | testEmpty
  | getting
  | flushing (e : Entry F)
  | exited

/-- `accepted`, the ids in `store`, `drained` and `unwritten` are kept for the proofs: how many batches
were put, and which of them were written, taken out by `log`, and let go by the worker unwritten. -/
structure State (F : Type) where
  queue : List (Entry F)
  stop : Bool
  dropped : ℕ
  caller : Caller F
  worker : Worker F
  store : List (ℕ × HashMap String F × ℤ)
  accepted : ℕ
  drained : List ℕ
  unwritten : List ℕ

def State.start : State F := ⟨[], false, 0, .idle, .testStop, [], 0, [], []⟩

inductive Event (F : Type) where
  | log (b : Batch F)
  | drain
  | putAgain
  | finish
  | testStop
  | testEmpty
  | get
  | flush (storeOk : Bool)

def put (s : State F) (b : Batch F) : State F :=
  { s with queue := s.queue ++ [⟨s.accepted, b⟩], accepted := s.accepted + 1, caller := .idle }

def log (s : State F) (b : Batch F) : State F :=
  if b.metrics = [] then s
  else if s.queue.length < queueMaxsize then put s b
  else { s with dropped := s.dropped + 1, caller := .full b }

def drain (s : State F) (b : Batch F) : State F :=
  match s.queue with
  | [] => { s with caller := .drained b }
  | e :: rest => { s with queue := rest, drained := s.drained ++ [e.id], caller := .drained b }

def putAgain (s : State F) (b : Batch F) : State F :=
  if s.queue.length < queueMaxsize then put s b else { s with caller := .idle }

def get (s : State F) : State F :=
  match s.queue with
  | [] => { s with worker := .testStop }
  | e :: rest => { s with queue := rest, worker := .flushing e }

def flush (nodePrefix : Option String) (s : State F) (e : Entry F) (storeOk : Bool) : State F :=
  match flushOne nodePrefix e.batch storeOk with
  | .written safe =>
    { s with store := s.store ++ [(e.id, safe, e.batch.step)], worker := .testStop }
  | .skipped => { s with unwritten := s.unwritten ++ [e.id], worker := .testStop }
  | .raised => { s with unwritten := s.unwritten ++ [e.id], worker := .testStop }

def step (nodePrefix : Option String) (s : State F) (e : Event F) : State F :=
  match e, s.caller, s.worker with
  | .log b, .idle, _ => log s b
  | .drain, .full b, _ => drain s b
  | .putAgain, .drained b, _ => putAgain s b
  | .finish, .idle, _ => { s with stop := true, caller := .finished }
  | .testStop, _, .testStop => { s with worker := if s.stop then .testEmpty else .getting }
  | .testEmpty, _, .testEmpty => { s with worker := if s.queue.isEmpty then .exited else .getting }
  | .get, _, .getting => get s
  | .flush storeOk, _, .flushing entry => flush nodePrefix s entry storeOk
  | _, _, _ => s

theorem safeMetrics_spec (nodePrefix : Option String) (metrics : List (String × FloatResult F))
    (safe : HashMap String F) :
    (safeMetrics nodePrefix metrics safe = none ↔ ∃ key, (key, FloatResult.otherError) ∈ metrics) ∧
    ∀ safe', safeMetrics nodePrefix metrics safe = some safe' →
      (safe'.keys = [] ↔ safe.keys = [] ∧ ∀ key fv, (key, FloatResult.value fv) ∉ metrics) := by
  induction metrics generalizing safe with
  | nil =>
    constructor
    · simp [safeMetrics]
    · intro safe' h
      rw [← Option.some.inj h]
      simp
  | cons m rest ih =>
    obtain ⟨rawKey, v⟩ := m
    cases v with
    | value fv =>
      obtain ⟨hnone, hkeys⟩ := ih (safe.insert (translateKey nodePrefix rawKey) fv)
      constructor
      · rw [safeMetrics, hnone]
        simp
      · intro safe' h
        rw [hkeys safe' h]
        refine iff_of_false ?_ ?_
        · intro hempty
          simp [AList.keys_insert] at hempty
        · intro hall
          exact hall.2 rawKey fv List.mem_cons_self
    | typeOrValueError =>
      obtain ⟨hnone, hkeys⟩ := ih safe
      constructor
      · rw [safeMetrics, hnone]
        simp
      · intro safe' h
        rw [hkeys safe' h]
        simp
    | otherError =>
      constructor
      · simp [safeMetrics]
      · intro safe' h
        cases h

/-- The store takes the write, nothing comes out of the conversions but what is caught, and some value
converts. -/
structure Writable (b : Batch F) (storeOk : Bool) : Prop where
  stored : storeOk = true
  caught : ∀ key, (key, FloatResult.otherError) ∉ b.metrics
  converts : ∃ key fv, (key, FloatResult.value fv) ∈ b.metrics

theorem flushOne_written (nodePrefix : Option String) (b : Batch F) (storeOk : Bool) :
    (∃ safe, flushOne nodePrefix b storeOk = .written safe) ↔ Writable b storeOk := by
  obtain ⟨hnone, hkeys⟩ := safeMetrics_spec nodePrefix b.metrics ∅
  rw [flushOne]
  cases hsafe : safeMetrics nodePrefix b.metrics ∅ with
  | none =>
    obtain ⟨key, hkey⟩ := hnone.1 hsafe
    refine iff_of_false ?_ (fun h => h.caught key hkey)
    intro h
    obtain ⟨safe, h⟩ := h
    cases h
  | some safe =>
    have hcaught : ∀ key, (key, FloatResult.otherError) ∉ b.metrics := by
      intro key hkey
      rw [hnone.2 ⟨key, hkey⟩] at hsafe
      cases hsafe
    have hempty := hkeys safe hsafe
    simp only [AList.keys_empty, true_and] at hempty
    by_cases hsome : safe.keys = []
    · simp only [if_pos hsome]
      refine iff_of_false (fun h => by cases h.choose_spec) ?_
      intro h
      obtain ⟨key, fv, hmem⟩ := h.converts
      exact hempty.1 hsome key fv hmem
    · simp only [if_neg hsome]
      have hconverts : ∃ key fv, (key, FloatResult.value fv) ∈ b.metrics := by
        by_contra hnot
        push Not at hnot
        exact hsome (hempty.2 hnot)
      cases storeOk with
      | true => exact iff_of_true ⟨safe, rfl⟩ ⟨rfl, hcaught, hconverts⟩
      | false => exact iff_of_false (fun h => by cases h.choose_spec) (fun h => by cases h.stored)

def heldIds : Worker F → List ℕ
  | .flushing e => [e.id]
  | _ => []

inductive Moves (nodePrefix : Option String) (s : State F) : Event F → State F → Prop where
  | idle (e : Event F) : Moves nodePrefix s e s
  | put (e : Event F) (b : Batch F) (unfinished : s.caller ≠ .finished) :
      Moves nodePrefix s e (put s b)
  | full (b : Batch F) (caller : s.caller = .idle) :
      Moves nodePrefix s (.log b) { s with dropped := s.dropped + 1, caller := .full b }
  | nothing (b : Batch F) (caller : s.caller = .full b) :
      Moves nodePrefix s .drain { s with caller := .drained b }
  | drain (b : Batch F) (caller : s.caller = .full b) (e : Entry F) (rest : List (Entry F))
      (queue : s.queue = e :: rest) : Moves nodePrefix s .drain
        { s with queue := rest, drained := s.drained ++ [e.id], caller := .drained b }
  | giveUp (b : Batch F) (caller : s.caller = .drained b) :
      Moves nodePrefix s .putAgain { s with caller := .idle }
  | finish (caller : s.caller = .idle) :
      Moves nodePrefix s .finish { s with stop := true, caller := .finished }
  | stopSeen (worker : s.worker = .testStop) (stop : s.stop = true) :
      Moves nodePrefix s .testStop { s with worker := .testEmpty }
  | goOn (e : Event F) (worker : heldIds s.worker = []) :
      Moves nodePrefix s e { s with worker := .getting }
  | exit (worker : s.worker = .testEmpty) (queue : s.queue = []) :
      Moves nodePrefix s .testEmpty { s with worker := .exited }
  | timeout (worker : s.worker = .getting) :
      Moves nodePrefix s .get { s with worker := .testStop }
  | get (worker : s.worker = .getting) (e : Entry F) (rest : List (Entry F))
      (queue : s.queue = e :: rest) :
      Moves nodePrefix s .get { s with queue := rest, worker := .flushing e }
  | written (e : Entry F) (worker : s.worker = .flushing e) (storeOk : Bool)
      (writable : Writable e.batch storeOk) (safe : HashMap String F) :
      Moves nodePrefix s (.flush storeOk)
        { s with store := s.store ++ [(e.id, safe, e.batch.step)], worker := .testStop }
  | letGo (e : Entry F) (worker : s.worker = .flushing e) (storeOk : Bool)
      (unwritable : ¬Writable e.batch storeOk) : Moves nodePrefix s (.flush storeOk)
        { s with unwritten := s.unwritten ++ [e.id], worker := .testStop }

theorem flush_moves (nodePrefix : Option String) (s : State F) (e : Entry F)
    (worker : s.worker = .flushing e) (storeOk : Bool) :
    Moves nodePrefix s (.flush storeOk) (flush nodePrefix s e storeOk) := by
  have hwritten := flushOne_written nodePrefix e.batch storeOk
  rw [flush]
  cases hflush : flushOne nodePrefix e.batch storeOk with
  | written safe => exact .written e worker storeOk (hwritten.1 ⟨safe, hflush⟩) safe
  | skipped =>
    rw [hflush] at hwritten
    exact .letGo e worker storeOk (fun h => nomatch hwritten.2 h)
  | raised =>
    rw [hflush] at hwritten
    exact .letGo e worker storeOk (fun h => nomatch hwritten.2 h)

theorem step_moves (nodePrefix : Option String) (s : State F) (e : Event F) :
    Moves nodePrefix s e (step nodePrefix s e) := by
  cases e with
  | log b =>
    cases hcaller : s.caller with
    | idle =>
      simp only [step, hcaller, log]
      split
      · exact .idle _
      · split
        · exact .put _ b (by simp [hcaller])
        · exact .full b hcaller
    | _ => simpa only [step, hcaller] using Moves.idle _
  | drain =>
    cases hcaller : s.caller with
    | full b =>
      simp only [step, hcaller, drain]
      split
      · exact .nothing b hcaller
      · next e rest hqueue => exact .drain b hcaller e rest hqueue
    | _ => simpa only [step, hcaller] using Moves.idle _
  | putAgain =>
    cases hcaller : s.caller with
    | drained b =>
      simp only [step, hcaller, putAgain]
      split
      · exact .put _ b (by simp [hcaller])
      · exact .giveUp b hcaller
    | _ => simpa only [step, hcaller] using Moves.idle _
  | finish =>
    cases hcaller : s.caller with
    | idle => simpa only [step, hcaller] using Moves.finish hcaller
    | _ => simpa only [step, hcaller] using Moves.idle _
  | testStop =>
    cases hworker : s.worker with
    | testStop =>
      simp only [step, hworker]
      split
      · next hstop => exact .stopSeen hworker hstop
      · exact .goOn _ (by rw [hworker]; rfl)
    | _ => simpa only [step, hworker] using Moves.idle _
  | testEmpty =>
    cases hworker : s.worker with
    | testEmpty =>
      simp only [step, hworker]
      split
      · next hempty => exact .exit hworker (List.isEmpty_iff.1 hempty)
      · exact .goOn _ (by rw [hworker]; rfl)
    | _ => simpa only [step, hworker] using Moves.idle _
  | get =>
    cases hworker : s.worker with
    | getting =>
      simp only [step, hworker, get]
      split
      · exact .timeout hworker
      · next e rest hqueue => exact .get hworker e rest hqueue
    | _ => simpa only [step, hworker] using Moves.idle _
  | flush storeOk =>
    cases hworker : s.worker with
    | flushing entry => simpa only [step, hworker] using flush_moves nodePrefix s entry hworker storeOk
    | _ => simpa only [step, hworker] using Moves.idle _

def tally (s : State F) (i : ℕ) : ℕ :=
  (s.queue.map Entry.id).count i + (heldIds s.worker).count i + (s.store.map Prod.fst).count i +
    s.drained.count i + s.unwritten.count i

def Once (s : State F) : Prop := ∀ i, tally s i = if i < s.accepted then 1 else 0

theorem once_start : Once (State.start : State F) := by
  intro i
  simp [tally, State.start, heldIds]

theorem once_moves {nodePrefix : Option String} {s s' : State F} {e : Event F}
    (hmoves : Moves nodePrefix s e s') (h : Once s) : Once s' := by
  intro i
  have hi := h i
  cases hmoves with
  | idle => exact hi
  | put e b unfinished =>
    simp only [tally, put, List.map_append, List.count_append, List.map_singleton,
      List.count_singleton, beq_iff_eq] at hi ⊢
    by_cases hnew : s.accepted = i
    · subst hnew
      simp only [lt_irrefl, if_false, if_true, Nat.lt_succ_self] at hi ⊢
      omega
    · have hless : i < s.accepted + 1 ↔ i < s.accepted := by omega
      simp only [hless, if_neg hnew]
      omega
  | full b caller => exact hi
  | nothing b caller => exact hi
  | drain b caller e rest queue =>
    simp only [tally, queue, List.map_cons, List.count_cons, List.count_append, List.count_nil]
      at hi ⊢
    omega
  | giveUp b caller => exact hi
  | finish caller => exact hi
  | stopSeen worker stop =>
    simp only [tally, worker, heldIds] at hi ⊢
    exact hi
  | goOn e worker =>
    simp only [tally, worker] at hi
    exact hi
  | exit worker queue =>
    simp only [tally, worker, heldIds] at hi ⊢
    exact hi
  | timeout worker =>
    simp only [tally, worker, heldIds] at hi ⊢
    exact hi
  | get worker e rest queue =>
    simp only [tally, worker, queue, heldIds, List.map_cons, List.count_cons, List.count_nil] at hi ⊢
    omega
  | written e worker storeOk writable safe =>
    simp only [tally, worker, heldIds, List.map_append, List.map_cons, List.map_nil,
      List.count_append, List.count_cons, List.count_nil] at hi ⊢
    omega
  | letGo e worker storeOk unwritable =>
    simp only [tally, worker, heldIds, List.count_append, List.count_cons, List.count_nil] at hi ⊢
    omega

/-- Nothing is logged after `finish`, so the worker that saw the stop flag and then an empty queue
leaves it empty. -/
structure Closed (s : State F) : Prop where
  stopped : s.stop = true → s.caller = .finished
  testEmpty : s.worker = .testEmpty → s.stop = true
  exited : s.worker = .exited → s.stop = true ∧ s.queue = []

theorem closed_start : Closed (State.start : State F) := ⟨nofun, nofun, nofun⟩

theorem closed_moves {nodePrefix : Option String} {s s' : State F} {e : Event F}
    (hmoves : Moves nodePrefix s e s') (h : Closed s) : Closed s' := by
  cases hmoves with
  | idle => exact h
  | put e b unfinished =>
    exact ⟨fun hstop => absurd (h.stopped hstop) unfinished, h.testEmpty,
      fun hexit => absurd (h.stopped (h.exited hexit).1) unfinished⟩
  | full b caller =>
    exact ⟨fun hstop => absurd (h.stopped hstop) (by simp [caller]), h.testEmpty, h.exited⟩
  | nothing b caller =>
    exact ⟨fun hstop => absurd (h.stopped hstop) (by simp [caller]), h.testEmpty, h.exited⟩
  | drain b caller e rest queue =>
    exact ⟨fun hstop => absurd (h.stopped hstop) (by simp [caller]), h.testEmpty,
      fun hexit => absurd (h.exited hexit).2 (by simp [queue])⟩
  | giveUp b caller =>
    exact ⟨fun hstop => absurd (h.stopped hstop) (by simp [caller]), h.testEmpty, h.exited⟩
  | finish caller => exact ⟨fun _ => rfl, fun _ => rfl, fun hexit => ⟨rfl, (h.exited hexit).2⟩⟩
  | stopSeen worker stop => exact ⟨h.stopped, fun _ => stop, nofun⟩
  | goOn e worker => exact ⟨h.stopped, nofun, nofun⟩
  | exit worker queue => exact ⟨h.stopped, nofun, fun _ => ⟨h.testEmpty worker, queue⟩⟩
  | timeout worker => exact ⟨h.stopped, nofun, nofun⟩
  | get worker e rest queue => exact ⟨h.stopped, nofun, nofun⟩
  | written e worker storeOk writable safe => exact ⟨h.stopped, nofun, nofun⟩
  | letGo e worker storeOk unwritable => exact ⟨h.stopped, nofun, nofun⟩

def pending : Caller F → ℕ
  | .full _ => 1
  | _ => 0

def Counted (s : State F) : Prop := s.drained.length + pending s.caller ≤ s.dropped

theorem counted_start : Counted (State.start : State F) := le_refl 0

theorem counted_moves {nodePrefix : Option String} {s s' : State F} {e : Event F}
    (hmoves : Moves nodePrefix s e s') (h : Counted s) : Counted s' := by
  cases hmoves with
  | put e b unfinished =>
    simp only [Counted, put, pending] at h ⊢
    omega
  | full b caller =>
    simp only [Counted, caller, pending] at h ⊢
    omega
  | nothing b caller =>
    simp only [Counted, caller, pending] at h ⊢
    omega
  | drain b caller e rest queue =>
    simp only [Counted, caller, pending, List.length_append, List.length_singleton] at h ⊢
    omega
  | giveUp b caller =>
    simp only [Counted, caller, pending] at h ⊢
    omega
  | finish caller =>
    simp only [Counted, caller, pending] at h ⊢
    omega
  | _ => exact h

def Settled (s : State F) : Prop :=
  ∀ i < s.accepted, (s.store.map Prod.fst).count i = 1 ∨ i ∈ s.drained

def Flushes (s : State F) : Event F → Prop
  | .flush storeOk => ∀ e, s.worker = .flushing e → Writable e.batch storeOk
  | _ => True

def NoneLost (s : State F) : Prop := s.unwritten = []

theorem unwritten_moves {nodePrefix : Option String} {s s' : State F} {e : Event F}
    (hmoves : Moves nodePrefix s e s') (he : ∀ storeOk, e ≠ .flush storeOk) :
    s'.unwritten = s.unwritten := by
  cases hmoves with
  | written e worker storeOk => exact absurd rfl (he storeOk)
  | letGo e worker storeOk => exact absurd rfl (he storeOk)
  | _ => rfl

theorem noneLost_flush (nodePrefix : Option String) (s : State F) (entry : Entry F) (storeOk : Bool) :
    NoneLost (flush nodePrefix s entry storeOk) ↔ NoneLost s ∧ Writable entry.batch storeOk := by
  have hwritten := flushOne_written nodePrefix entry.batch storeOk
  rw [NoneLost, NoneLost, ← hwritten, flush]
  cases hflush : flushOne nodePrefix entry.batch storeOk with
  | written safe => simp
  | skipped => simp
  | raised => simp

theorem noneLost_step (nodePrefix : Option String) (s : State F) (e : Event F) :
    NoneLost (step nodePrefix s e) ↔ NoneLost s ∧ Flushes s e := by
  cases e with
  | flush storeOk =>
    cases hworker : s.worker with
    | flushing entry =>
      simp only [step, hworker, Flushes, noneLost_flush, Worker.flushing.injEq, forall_eq']
    | _ => simp [step, hworker, Flushes]
  | _ =>
    rw [NoneLost, unwritten_moves (step_moves nodePrefix s _) (fun storeOk => by simp)]
    exact (and_iff_left trivial).symm

theorem settled_iff {s : State F} (honce : Once s) (hclosed : Closed s) (hexited : s.worker = .exited) :
    Settled s ↔ NoneLost s := by
  have hqueue := (hclosed.exited hexited).2
  have hplaces : ∀ i, (s.store.map Prod.fst).count i + s.drained.count i + s.unwritten.count i =
      if i < s.accepted then 1 else 0 := by
    intro i
    have hi := honce i
    simp only [tally, hqueue, hexited, heldIds, List.map_nil, List.count_nil] at hi
    omega
  constructor
  · intro h
    cases hunwritten : s.unwritten with
    | nil => exact hunwritten
    | cons j rest =>
      have hj := hplaces j
      rw [hunwritten, List.count_cons_self] at hj
      by_cases hless : j < s.accepted
      · rw [if_pos hless] at hj
        cases h j hless with
        | inl hwritten => omega
        | inr hdrained =>
          have hpos := List.count_pos_iff.2 hdrained
          omega
      · rw [if_neg hless] at hj
        omega
  · intro h i hless
    have hi := hplaces i
    have hnone : s.unwritten = [] := h
    rw [hnone, List.count_nil, if_pos hless] at hi
    by_cases hdrained : i ∈ s.drained
    · exact .inr hdrained
    · rw [List.count_eq_zero.2 hdrained] at hi
      exact .inl (by omega)

/-- Where the worker has come to its end, every accepted batch was written once or taken out, each of
those with its own count, exactly if every flush wrote its batch. -/
theorem logger_settled_iff (nodePrefix : Option String) (events : List (Event F))
    (hexited : (Run.exec (step nodePrefix) State.start events).worker = .exited) :
    (Run.exec (step nodePrefix) State.start events).drained.length ≤
      (Run.exec (step nodePrefix) State.start events).dropped ∧
    (Settled (Run.exec (step nodePrefix) State.start events) ↔
      Run.Along (step nodePrefix) Flushes State.start events) := by
  have honce : ∀ (s : State F) e, Once s → Once (step nodePrefix s e) :=
    fun s e => once_moves (step_moves nodePrefix s e)
  have hclosed : ∀ (s : State F) e, Closed s → Closed (step nodePrefix s e) :=
    fun s e => closed_moves (step_moves nodePrefix s e)
  have hcounted : ∀ (s : State F) e, Counted s → Counted (step nodePrefix s e) :=
    fun s e => counted_moves (step_moves nodePrefix s e)
  constructor
  · have hcounts := Run.invariant_of_step hcounted counted_start events
    rw [Counted] at hcounts
    omega
  · rw [settled_iff (Run.invariant_of_step honce once_start events)
      (Run.invariant_of_step hclosed closed_start events) hexited,
      Run.exec_iff (noneLost_step nodePrefix)]
    exact and_iff_right rfl

def oneLoss : Batch ℕ := ⟨[("train/loss", .value 2)], 1⟩

def oneBatchRun (storeOk : Bool) : List (Event ℕ) :=
  [.log oneLoss, .testStop, .get, .flush storeOk, .finish, .testStop, .testEmpty]

theorem oneBatch_settled_iff :
    (Run.exec (step none) State.start (oneBatchRun true)).drained.length ≤
      (Run.exec (step none) State.start (oneBatchRun true)).dropped ∧
    (Settled (Run.exec (step none) State.start (oneBatchRun true)) ↔
      Run.Along (step none) Flushes State.start (oneBatchRun true)) :=
  logger_settled_iff none (oneBatchRun true) rfl

/-- The store raises once: the batch is neither written nor counted. -/
theorem oneBatch_lost :
    (Run.exec (step none) State.start (oneBatchRun false)).worker = .exited ∧
    (Run.exec (step none) State.start (oneBatchRun false)).dropped = 0 ∧
    ¬Settled (Run.exec (step none) State.start (oneBatchRun false)) := by
  refine ⟨rfl, rfl, ?_⟩
  intro h
  cases h 0 (by decide) with
  | inl hwritten => exact absurd hwritten (by decide)
  | inr hdrained => exact absurd hdrained (by decide)

end Slakshna.MLflowLogger

import Slakshna.Lib.Run

/-! One replica of the HF backend. Requests are admitted one at a time; each starts a daemon thread
that runs `model.generate` and hands its text over in a streamer's queue, which the response generator
drains. What `model.generate` puts and when it returns is decided from outside. -/
namespace Slakshna.Replica

/-- How far a thread is in `model.generate`: it puts text, it has ended its streamer, it has returned
or raised. -/
inductive Phase where
  | generating
  | ended
  | done
  deriving DecidableEq

/-- A thread and the queue of its streamer, in which `none` is the stop signal; whether the response
generator took that, or was closed before. -/
structure Thread where
  phase : Phase
  queue : List (Option String)
  delivered : Bool
  abandoned : Bool
  deriving DecidableEq

inductive Call where
  | put (text : String)
  | stop
  | ret
  | raise

def Thread.step (t : Thread) : Call → Thread
  | .put text =>
    if t.phase = .generating then { t with queue := t.queue ++ [some text] } else t
  | .stop =>
    if t.phase = .generating then { t with phase := .ended, queue := t.queue ++ [none] } else t
  | .ret => if t.phase = .ended then { t with phase := .done } else t
  | .raise => { t with phase := .done }

def Thread.executing (t : Thread) : Bool := decide (t.phase ≠ .done)

inductive Stage where
  | idle
  | admitted
  | draining
  deriving DecidableEq

structure State where
  stage : Stage
  threads : List Thread
  sent : List String

def init : State := ⟨.idle, [], []⟩

inductive Event where
  | request
  | start
  | next
  | close
  | thread (i : ℕ) (call : Call)

namespace State

def startThread (s : State) : State :=
  { s with stage := .draining, threads := ⟨.generating, [], false, false⟩ :: s.threads }

/-- `_safe_next` on the streamer of the latest thread; it blocks while the queue is empty. -/
def drain (s : State) : State :=
  match s.threads with
  | [] => s
  | t :: earlier =>
    match t.queue with
    | [] => s
    | some text :: queue =>
      { s with
        threads := { t with queue := queue } :: earlier
        sent := if text = "" then s.sent else s.sent ++ [text] }
    | none :: queue =>
      { s with
        stage := .idle
        threads := { t with queue := queue, delivered := true } :: earlier }

def disconnect (s : State) : State :=
  { s with
    stage := .idle
    threads := s.threads.modify 0 (fun t => { t with abandoned := true }) }

/-- `max_ongoing_requests = 1`: a request is admitted when none is being answered. -/
def step (s : State) : Event → State
  | .request => if s.stage = .idle then { s with stage := .admitted, sent := [] } else s
  | .start => if s.stage = .admitted then s.startThread else s
  | .next => if s.stage = .draining then s.drain else s
  | .close =>
    match s.stage with
    | .idle => s
    | .admitted => { s with stage := .idle }
    | .draining => s.disconnect
  | .thread i call => { s with threads := s.threads.modify i (fun t => t.step call) }

def executing (s : State) : ℕ := s.threads.countP Thread.executing

def OneThread (s : State) : Prop := s.executing ≤ 1

end State

def StartsAlone (s : State) (e : Event) : Prop :=
  e = .start → s.stage = .admitted → ∀ t ∈ s.threads.head?, t.phase = .done

section Modify
variable {α : Type} {l : List α} {i : ℕ} {f : α → α} {t : α}

theorem mem_modify (h : t ∈ l.modify i f) : t ∈ l ∨ ∃ u, l[i]? = some u ∧ t = f u := by
  induction l generalizing i with
  | nil => simp at h
  | cons v l ih =>
    cases i with
    | zero =>
      rw [List.modify_zero_cons] at h
      cases h with
      | head => exact .inr ⟨v, rfl, rfl⟩
      | tail _ h => exact .inl (List.mem_cons_of_mem v h)
    | succ i =>
      rw [List.modify_succ_cons] at h
      cases h with
      | head => exact .inl List.mem_cons_self
      | tail _ h =>
        cases ih h with
        | inl ht => exact .inl (List.mem_cons_of_mem v ht)
        | inr ht => exact .inr ht

theorem mem_tail_modify (h : t ∈ (l.modify i f).tail) : ∃ u ∈ l.tail, t = u ∨ t = f u := by
  cases l with
  | nil => simp at h
  | cons v l =>
    cases i with
    | zero => exact ⟨t, h, .inl rfl⟩
    | succ i =>
      obtain ht | ⟨u, hu, ht⟩ := mem_modify h
      · exact ⟨t, ht, .inl rfl⟩
      · exact ⟨u, List.mem_of_getElem? hu, .inr ht⟩

theorem head_modify (h : t ∈ (l.modify i f).head?) : ∃ u ∈ l.head?, t = u ∨ t = f u := by
  cases l with
  | nil => simp at h
  | cons v l =>
    cases i with
    | zero => exact ⟨v, rfl, .inr (Option.some.inj h).symm⟩
    | succ i => exact ⟨v, rfl, .inl (Option.some.inj h).symm⟩

end Modify

def Serial (s : State) : Prop := ∀ t ∈ s.threads.tail, t.phase = .done

inductive Drains (s : State) : State → Prop where
  | waits : Drains s s
  | yields (t : Thread) (earlier : List Thread) (text : String) (queue : List (Option String))
      (hthreads : s.threads = t :: earlier) (hqueue : t.queue = some text :: queue) :
      Drains s { s with
        threads := { t with queue := queue } :: earlier
        sent := if text = "" then s.sent else s.sent ++ [text] }
  | stops (t : Thread) (earlier : List Thread) (queue : List (Option String))
      (hthreads : s.threads = t :: earlier) (hqueue : t.queue = none :: queue) :
      Drains s { s with
        stage := .idle
        threads := { t with queue := queue, delivered := true } :: earlier }

theorem drain_drains (s : State) : Drains s s.drain := by
  rw [State.drain]
  cases hthreads : s.threads with
  | nil => exact .waits
  | cons t earlier =>
    cases hqueue : t.queue with
    | nil =>
      simp only [hqueue]
      exact .waits
    | cons item queue =>
      cases item with
      | none =>
        simp only [hqueue]
        exact .stops t earlier queue hthreads hqueue
      | some text =>
        simp only [hqueue]
        exact .yields t earlier text queue hthreads hqueue

inductive Moves (s : State) : Event → State → Prop where
  | stays (e : Event) : Moves s e s
  | admits (hstage : s.stage = .idle) : Moves s .request { s with stage := .admitted, sent := [] }
  | starts (hstage : s.stage = .admitted) : Moves s .start s.startThread
  | drains {s' : State} (hstage : s.stage = .draining) (hdrains : Drains s s') : Moves s .next s'
  | leaves (hstage : s.stage = .admitted) : Moves s .close { s with stage := .idle }
  | disconnects (hstage : s.stage = .draining) : Moves s .close s.disconnect
  | calls (i : ℕ) (call : Call) :
      Moves s (.thread i call) { s with threads := s.threads.modify i (fun t => t.step call) }

theorem step_moves (s : State) (e : Event) : Moves s e (s.step e) := by
  cases e with
  | request =>
    rw [State.step]
    split
    · next hstage => exact .admits hstage
    · exact .stays _
  | start =>
    rw [State.step]
    split
    · next hstage => exact .starts hstage
    · exact .stays _
  | next =>
    rw [State.step]
    split
    · next hstage => exact .drains hstage (drain_drains s)
    · exact .stays _
  | close =>
    rw [State.step]
    split
    · exact .stays _
    · next hstage => exact .leaves hstage
    · next hstage => exact .disconnects hstage
  | thread i call => exact .calls i call

theorem forall_threads_step {Q : Thread → Prop} {s : State} {e : Event}
    (h : ∀ t ∈ s.threads, Q t) (hnew : Q ⟨.generating, [], false, false⟩)
    (htext : ∀ t text queue, t.queue = some text :: queue → Q t → Q { t with queue := queue })
    (hstop : ∀ t queue, t.queue = none :: queue → Q t →
      Q { t with queue := queue, delivered := true })
    (hleave : ∀ t, Q t → Q { t with abandoned := true })
    (hcall : ∀ i t call, e = .thread i call → s.threads[i]? = some t → Q t → Q (t.step call)) :
    ∀ t ∈ (s.step e).threads, Q t := by
  have hmoves := step_moves s e
  generalize s.step e = s' at hmoves
  cases hmoves with
  | stays => exact h
  | admits hstage => exact h
  | starts hstage =>
    intro t ht
    cases ht with
    | head => exact hnew
    | tail _ ht => exact h t ht
  | drains hstage hdrains =>
    cases hdrains with
    | waits => exact h
    | yields t earlier text queue hthreads hqueue =>
      rw [hthreads] at h
      intro u hu
      cases hu with
      | head => exact htext t text queue hqueue (h t List.mem_cons_self)
      | tail _ hu => exact h u (List.mem_cons_of_mem t hu)
    | stops t earlier queue hthreads hqueue =>
      rw [hthreads] at h
      intro u hu
      cases hu with
      | head => exact hstop t queue hqueue (h t List.mem_cons_self)
      | tail _ hu => exact h u (List.mem_cons_of_mem t hu)
  | leaves hstage => exact h
  | disconnects hstage =>
    intro t ht
    obtain ht | ⟨u, hu, rfl⟩ := mem_modify ht
    · exact h t ht
    · exact hleave u (h u (List.mem_of_getElem? hu))
  | calls i call =>
    intro t ht
    obtain ht | ⟨u, hu, rfl⟩ := mem_modify ht
    · exact h t ht
    · exact hcall i u call rfl hu (h u (List.mem_of_getElem? hu))

theorem Thread.step_done {t : Thread} (h : t.phase = .done) (call : Call) :
    (t.step call).phase = .done := by
  cases call <;> simp [Thread.step, h]

theorem serial_step {s : State} {e : Event} (hs : Serial s) (he : StartsAlone s e) :
    Serial (s.step e) := by
  have hmoves := step_moves s e
  generalize s.step e = s' at hmoves
  cases hmoves with
  | stays => exact hs
  | admits hstage => exact hs
  | starts hstage =>
    intro t ht
    have ht' : t ∈ s.threads := ht
    cases hthreads : s.threads with
    | nil =>
      rw [hthreads] at ht'
      cases ht'
    | cons u earlier =>
      rw [hthreads] at ht'
      cases ht' with
      | head => exact he rfl hstage t (by rw [hthreads]; rfl)
      | tail _ hearlier =>
        apply hs
        rw [hthreads]
        exact hearlier
  | drains hstage hdrains =>
    cases hdrains with
    | waits => exact hs
    | yields t earlier text queue hthreads hqueue =>
      rw [Serial, hthreads] at hs
      exact hs
    | stops t earlier queue hthreads hqueue =>
      rw [Serial, hthreads] at hs
      exact hs
  | leaves hstage => exact hs
  | disconnects hstage =>
    intro t ht
    obtain ⟨u, hu, ht⟩ := mem_tail_modify ht
    cases ht with
    | inl ht => exact ht ▸ hs u hu
    | inr ht => exact ht ▸ hs u hu
  | calls i call =>
    intro t ht
    obtain ⟨u, hu, ht⟩ := mem_tail_modify ht
    cases ht with
    | inl ht => exact ht ▸ hs u hu
    | inr ht => exact ht ▸ Thread.step_done (hs u hu) call

theorem executing_eq_zero {l : List Thread} :
    l.countP Thread.executing = 0 ↔ ∀ t ∈ l, t.phase = .done := by
  simp [List.countP_eq_zero, Thread.executing]

theorem Serial.oneThread {s : State} (h : Serial s) : s.OneThread := by
  rw [State.OneThread, State.executing]
  cases hthreads : s.threads with
  | nil => exact Nat.zero_le 1
  | cons t earlier =>
    rw [Serial, hthreads] at h
    have hearlier : earlier.countP Thread.executing = 0 := executing_eq_zero.2 h
    rw [List.countP_cons, hearlier]
    split <;> omega

theorem startsAlone_of_step {s : State} {e : Event} (h : (s.step e).OneThread) :
    StartsAlone s e := by
  intro he hstage t ht
  subst he
  have hnew : Thread.executing ⟨.generating, [], false, false⟩ = true := rfl
  rw [State.step, if_pos hstage, State.OneThread, State.executing, State.startThread,
    List.countP_cons_of_pos hnew] at h
  have hnone : s.threads.countP Thread.executing = 0 := by omega
  exact executing_eq_zero.1 hnone t (List.mem_of_mem_head? ht)

/-! Which thread a request can find still executing. -/

def Thread.Signal (t : Thread) : Prop := none ∈ t.queue ∨ t.delivered = true

/-- A thread that has put its stop signal has ended, and one whose request is no longer answered has
ended or was abandoned. -/
structure Inv (s : State) : Prop where
  stopped : ∀ t ∈ s.threads, t.Signal → t.phase ≠ .generating
  left : s.stage ≠ .draining → ∀ t ∈ s.threads.head?, t.abandoned = true ∨ t.phase ≠ .generating

theorem Thread.signal_text {t : Thread} {text : String} {queue : List (Option String)}
    (h : t.queue = some text :: queue) : Thread.Signal { t with queue := queue } ↔ t.Signal := by
  rw [Thread.Signal, Thread.Signal, h, List.mem_cons]
  simp

theorem Thread.signal_stop {t : Thread} {queue : List (Option String)}
    (h : t.queue = none :: queue) : t.Signal :=
  .inl (h ▸ List.mem_cons_self)

theorem Thread.stopped_step {t : Thread} (h : t.Signal → t.phase ≠ .generating) (call : Call) :
    (t.step call).Signal → (t.step call).phase ≠ .generating := by
  cases call with
  | put text =>
    rw [Thread.step]
    split
    · intro hsignal
      exact h (by simpa [Thread.Signal] using hsignal)
    · exact h
  | stop =>
    rw [Thread.step]
    split
    · nofun
    · exact h
  | ret =>
    rw [Thread.step]
    split
    · nofun
    · exact h
  | raise => nofun

theorem Thread.left_step {t : Thread} (h : t.abandoned = true ∨ t.phase ≠ .generating)
    (call : Call) : (t.step call).abandoned = true ∨ (t.step call).phase ≠ .generating := by
  cases call <;> grind [Thread.step]

theorem Inv.stopped_step {s : State} (h : Inv s) (e : Event) :
    ∀ t ∈ (s.step e).threads, t.Signal → t.phase ≠ .generating := by
  apply forall_threads_step h.stopped
  · nofun
  · intro t text queue hqueue hQ hsignal
    exact hQ ((Thread.signal_text hqueue).1 hsignal)
  · intro t queue hqueue hQ _
    exact hQ (Thread.signal_stop hqueue)
  · exact fun t hQ => hQ
  · exact fun i t call _ _ hQ => Thread.stopped_step hQ call

theorem Inv.step {s : State} (h : Inv s) (e : Event) : Inv (s.step e) := by
  refine ⟨h.stopped_step e, ?_⟩
  have hmoves := step_moves s e
  generalize s.step e = s' at hmoves
  cases hmoves with
  | stays => exact h.left
  | admits hstage => exact fun _ => h.left (by rw [hstage]; nofun)
  | starts hstage => exact fun hne => absurd rfl hne
  | drains hstage hdrains =>
    cases hdrains with
    | waits => exact h.left
    | yields t earlier text queue hthreads hqueue => exact fun hne => absurd hstage hne
    | stops t earlier queue hthreads hqueue =>
      intro _ u hu
      cases Option.some.inj hu
      have ht : t ∈ s.threads := hthreads ▸ List.mem_cons_self
      exact .inr (h.stopped t ht (Thread.signal_stop hqueue))
  | leaves hstage => exact fun _ => h.left (by rw [hstage]; nofun)
  | disconnects hstage =>
    intro _ t ht
    rw [State.disconnect] at ht
    cases hthreads : s.threads with
    | nil =>
      rw [hthreads] at ht
      cases ht
    | cons u earlier =>
      rw [hthreads] at ht
      cases Option.some.inj ht
      exact .inl rfl
  | calls i call =>
    intro hstage t ht
    obtain ⟨u, hu, ht⟩ := head_modify ht
    cases ht with
    | inl ht => exact ht ▸ h.left hstage u hu
    | inr ht => exact ht ▸ Thread.left_step (h.left hstage u hu) call

theorem abandoned_or_ended (es : List Event) {t : Thread}
    (hstage : (Run.exec State.step init es).stage = .admitted)
    (ht : t ∈ (Run.exec State.step init es).threads.head?) :
    t.phase = .done ∨ t.phase = .ended ∨ t.abandoned = true := by
  have hinv : Inv (Run.exec State.step init es) :=
    Run.invariant_of_step (fun s e h => h.step e) ⟨by nofun, by nofun⟩ es
  have hleft := hinv.left (by rw [hstage]; nofun) t ht
  cases hphase : t.phase with
  | generating => exact .inr (.inr (hleft.resolve_right (fun h => h hphase)))
  | ended => exact .inr (.inl rfl)
  | done => exact .inl rfl

/-- At most one thread is executing throughout a run exactly if every request starts its thread after
the one before has returned or raised. -/
theorem one_thread_iff (es : List Event) :
    (∀ k, (Run.exec State.step init (es.take k)).OneThread) ↔
      Run.Along State.step StartsAlone init es := by
  constructor
  · intro h
    apply Run.along_of_forall_take _ h
    intro s e hstep
    exact startsAlone_of_step hstep
  · intro h k
    apply Serial.oneThread
    exact Run.invariant_take (fun s e hs he => serial_step hs he) (by nofun) h k

/-- The client disconnects while the model generates, and the next request starts a second thread. -/
theorem two_threads :
    ¬∀ es, (Run.exec State.step init es).OneThread := by
  intro h
  have hrun : (Run.exec State.step init [.request, .start, .close, .request, .start]).executing ≤ 1 :=
    h _
  revert hrun
  decide

end Slakshna.Replica

import Slakshna.Serve.Replica

/-! The end of a response. The thread of `model.generate` puts the stop signal when it ends its
streamer, and `_safe_next` waits for it without a timeout. -/
namespace Slakshna.Replica

/-- No consumer is stranded: a thread that has ended has put the stop signal, which is still queued or
was delivered, and while its response is drained `_safe_next` finds an item. -/
structure NeverStranded (s : State) : Prop where
  signal : ∀ t ∈ s.threads, t.phase = .done → t.Signal
  returns : s.stage = .draining → ∀ t ∈ s.threads.head?, t.phase = .done → t.queue ≠ []

/-- No thread raises before it has ended its streamer. -/
def EndsFirst (s : State) (e : Event) : Prop :=
  ∀ i, e = .thread i .raise → ∀ t, s.threads[i]? = some t → t.phase ≠ .generating

theorem Thread.ended_step {t : Thread} (h : t.phase = .ended → t.Signal) (call : Call) :
    (t.step call).phase = .ended → (t.step call).Signal := by
  cases call with
  | put text =>
    rw [Thread.step]
    split
    · next hphase =>
      intro hended
      rw [hphase] at hended
      cases hended
    · exact h
  | stop =>
    rw [Thread.step]
    split
    · intro _
      simp [Thread.Signal]
    · exact h
  | ret =>
    rw [Thread.step]
    split
    · intro hphase
      cases hphase
    · exact h
  | raise =>
    intro hphase
    cases hphase

theorem Thread.done_step {t : Thread} (hended : t.phase = .ended → t.Signal)
    (hdone : t.phase = .done → t.Signal) {call : Call}
    (hcall : call = .raise → t.phase ≠ .generating) :
    (t.step call).phase = .done → (t.step call).Signal := by
  cases call with
  | put text =>
    rw [Thread.step]
    split
    · next hphase =>
      intro hphase'
      rw [hphase] at hphase'
      cases hphase'
    · exact hdone
  | stop =>
    rw [Thread.step]
    split
    · intro hphase
      cases hphase
    · exact hdone
  | ret =>
    rw [Thread.step]
    split
    · next hphase => exact fun _ => hended hphase
    · exact hdone
  | raise =>
    intro _
    cases hphase : t.phase with
    | generating => exact absurd hphase (hcall rfl)
    | ended => exact hended hphase
    | done => exact hdone hphase

structure Reached (s : State) : Prop where
  inv : Inv s
  ended : ∀ t ∈ s.threads, t.phase = .ended → t.Signal
  fresh : s.stage = .draining → ∀ t ∈ s.threads.head?, t.delivered = false

theorem fresh_step {s : State} (h : s.stage = .draining → ∀ t ∈ s.threads.head?, t.delivered = false)
    (e : Event) :
    (s.step e).stage = .draining → ∀ t ∈ (s.step e).threads.head?, t.delivered = false := by
  have hmoves := step_moves s e
  generalize s.step e = s' at hmoves
  cases hmoves with
  | stays => exact h
  | admits hstage =>
    intro hstage'
    cases hstage'
  | starts hstage =>
    intro _ t ht
    cases Option.some.inj ht
    rfl
  | drains hstage hdrains =>
    cases hdrains with
    | waits => exact h
    | yields t earlier text queue hthreads hqueue =>
      intro _ u hu
      cases Option.some.inj hu
      exact h hstage t (by rw [hthreads]; rfl)
    | stops t earlier queue hthreads hqueue =>
      intro hstage
      cases hstage
  | leaves hstage =>
    intro hstage'
    cases hstage'
  | disconnects hstage =>
    intro hstage'
    cases hstage'
  | calls i call =>
    intro hstage t ht
    obtain ⟨u, hu, ht⟩ := head_modify ht
    have hcall : (u.step call).delivered = u.delivered := by
      cases call <;> rw [Thread.step] <;> split <;> rfl
    cases ht with
    | inl ht => exact ht ▸ h hstage u hu
    | inr ht => rw [ht, hcall, h hstage u hu]

theorem Reached.step {s : State} (h : Reached s) (e : Event) : Reached (s.step e) := by
  refine ⟨h.inv.step e, ?_, fresh_step h.fresh e⟩
  apply forall_threads_step h.ended
  · intro hphase
    cases hphase
  · exact fun t text queue hqueue hQ hphase => (Thread.signal_text hqueue).2 (hQ hphase)
  · exact fun t queue hqueue hQ hphase => .inr rfl
  · exact fun t hQ => hQ
  · exact fun i t call _ _ hQ => Thread.ended_step hQ call

theorem Reached.neverStranded {s : State} (h : Reached s)
    (hsignal : ∀ t ∈ s.threads, t.phase = .done → t.Signal) : NeverStranded s := by
  refine ⟨hsignal, ?_⟩
  intro hstage t ht hdone hempty
  have hfresh := h.fresh hstage t ht
  cases hsignal t (List.mem_of_mem_head? ht) hdone with
  | inl hmem =>
    rw [hempty] at hmem
    cases hmem
  | inr hdelivered =>
    rw [hfresh] at hdelivered
    cases hdelivered

theorem neverStranded_step_iff {s : State} (h : Reached s) (hs : NeverStranded s) (e : Event) :
    NeverStranded (s.step e) ↔ EndsFirst s e := by
  constructor
  · rintro hstep i rfl t ht hphase
    have hraised : t.step .raise ∈ (s.step (.thread i .raise)).threads := by
      apply List.mem_of_getElem? (i := i)
      simp [State.step, ht]
    have hsignal : t.Signal := hstep.signal (t.step .raise) hraised rfl
    exact h.inv.stopped t (List.mem_of_getElem? ht) hsignal hphase
  · intro hfirst
    apply (h.step e).neverStranded
    apply forall_threads_step hs.signal
    · intro hphase
      cases hphase
    · exact fun t text queue hqueue hQ hphase => (Thread.signal_text hqueue).2 (hQ hphase)
    · exact fun t queue hqueue hQ hphase => .inr rfl
    · exact fun t hQ => hQ
    · intro i t call he ht hQ
      apply Thread.done_step (h.ended t (List.mem_of_getElem? ht)) hQ
      rintro rfl
      exact hfirst i he t ht

/-- A run strands no consumer, in any of its states, exactly if no thread raises before it has ended
its streamer. -/
theorem signalled_iff (es : List Event) :
    (∀ k, NeverStranded (Run.exec State.step init (es.take k))) ↔
      Run.Along State.step EndsFirst init es := by
  have hinit : Reached init := ⟨⟨by nofun, by nofun⟩, by nofun, by nofun⟩
  let Kept : State → Prop := fun s => Reached s ∧ NeverStranded s
  have hkept : ∀ s e, Kept s → (Kept (s.step e) ↔ EndsFirst s e) := by
    rintro s e ⟨hs, hnever⟩
    have hstep := neverStranded_step_iff hs hnever e
    exact ⟨fun h => hstep.1 h.2, fun h => ⟨hs.step e, hstep.2 h⟩⟩
  have hall : (∀ k, Kept (Run.exec State.step init (es.take k))) ↔
      Run.Along State.step EndsFirst init es :=
    Run.always_iff hkept ⟨hinit, hinit.neverStranded (by nofun)⟩ es
  rw [← hall]
  constructor
  · intro h k
    exact ⟨Run.invariant_of_step (fun s e hs => hs.step e) hinit (es.take k), h k⟩
  · intro h k
    exact (h k).2

theorem drains_to_idle {s : State} {t : Thread} {earlier : List Thread}
    (hstage : s.stage = .draining) (hthreads : s.threads = t :: earlier) (h : none ∈ t.queue) :
    ∃ n ≤ t.queue.length,
      (Run.exec State.step s (List.replicate n Event.next)).stage = .idle := by
  cases hqueue : t.queue with
  | nil =>
    rw [hqueue] at h
    cases h
  | cons item queue =>
    cases item with
    | none =>
      refine ⟨1, by simp, ?_⟩
      simp [State.step, State.drain, hstage, hthreads, hqueue]
    | some text =>
      have hlater : none ∈ queue := by simpa [hqueue] using h
      have hsize : queue.length < t.queue.length := by simp [hqueue]
      let s' : State := { s with
        threads := { t with queue := queue } :: earlier
        sent := if text = "" then s.sent else s.sent ++ [text] }
      obtain ⟨n, hn, hidle⟩ := drains_to_idle (s := s') (t := { t with queue := queue }) hstage
        rfl hlater
      refine ⟨n + 1, by simpa using hn, ?_⟩
      have hnext : s.step .next = s' := by
        simp [State.step, State.drain, hstage, hthreads, hqueue, s']
      rw [List.replicate_succ, Run.exec_cons, hnext]
      exact hidle
termination_by t.queue.length

theorem stranded_forever {s : State} {t : Thread} {earlier : List Thread}
    (hstage : s.stage = .draining) (hthreads : s.threads = t :: earlier) (hdone : t.phase = .done)
    (hempty : t.queue = []) (es : List Event) (hopen : Event.close ∉ es) :
    (Run.exec State.step s es).stage = .draining ∧ (Run.exec State.step s es).sent = s.sent := by
  induction es generalizing s t earlier with
  | nil => exact ⟨hstage, rfl⟩
  | cons e es ih =>
    obtain ⟨he, hes⟩ := not_or.1 (fun h => hopen (List.mem_cons.2 h))
    rw [Run.exec_cons]
    cases e with
    | request =>
      have hstep : s.step .request = s := by simp [State.step, hstage]
      rw [hstep]
      exact ih hstage hthreads hdone hempty hes
    | start =>
      have hstep : s.step .start = s := by simp [State.step, hstage]
      rw [hstep]
      exact ih hstage hthreads hdone hempty hes
    | next =>
      have hstep : s.step .next = s := by simp [State.step, State.drain, hstage, hthreads, hempty]
      rw [hstep]
      exact ih hstage hthreads hdone hempty hes
    | close => exact absurd rfl he
    | thread i call =>
      cases i with
      | zero =>
        have hstep : (t.step call).queue = [] := by
          cases call <;> simp [Thread.step, hdone, hempty]
        have hthreads' : (s.step (.thread 0 call)).threads = t.step call :: earlier := by
          simp [State.step, hthreads]
        exact ih hstage hthreads' (Thread.step_done hdone call) hstep hes
      | succ i =>
        have hthreads' : (s.step (.thread (i + 1) call)).threads =
            t :: earlier.modify i (fun t => t.step call) := by
          simp [State.step, hthreads]
        exact ih hstage hthreads' hdone hempty hes

/-- The thread raises before the first token. -/
theorem early_exception_strands : ¬∀ es, NeverStranded (Run.exec State.step init es) := by
  intro h
  have hstranded := h [.request, .start, .thread 0 .raise]
  exact hstranded.returns rfl ⟨.done, [], false, false⟩ rfl rfl rfl

end Slakshna.Replica

import LSMIO.FileCloser

namespace LSMIO

/-- The file that a call of `scheduleClose` leaves to be closed, if there is one to close. -/
def CloserEvent.scheduled? : CloserEvent → Option PoolFile
  | .scheduleClose file => closable file
  | _ => none

/-- What a step adds to the work ahead of the worker and the destructor: a call of `scheduleClose`
adds its file, and makes up for itself. -/
def CloserEvent.income : CloserEvent → Nat
  | .scheduleClose _ => 4
  | _ => 0

namespace FileCloser

/-- The files scheduled for closing, oldest first. -/
def scheduled (trace : List CloserEvent) : List PoolFile := trace.filterMap CloserEvent.scheduled?

/-- The files the worker has swapped out and not reached. -/
def inHand (s : FileCloser) : List (Option PoolFile) := match s.worker with
  | .closing toClose => toClose
  | .testing | .asleep | .returned => []

theorem inHand_of_worker {s s' : FileCloser} (same : s'.worker = s.worker) : s'.inHand = s.inHand := by
  rw [inHand, inHand, same]

@[simp] theorem inHand_notifyWorker (s : FileCloser) : s.notifyWorker.inHand = s.inHand := by
  rcases notifyWorker_worker s with ⟨same, -⟩ | ⟨testing, asleep⟩
  · exact inHand_of_worker same
  · simp [inHand, testing, asleep]

/-- The files accounted for, oldest first: those closed, and those still to close. -/
def files (s : FileCloser) : List PoolFile := s.closed ++ (s.inHand ++ s.pending).filterMap closable

theorem filterMap_closable_cons (file : Option PoolFile) (rest : List (Option PoolFile)) :
    (file :: rest).filterMap closable = (closable file).toList ++ rest.filterMap closable := by
  cases closes : closable file with
  | none => simp [closes]
  | some f => simp [closes]

@[simp] theorem files_notifyWorker (s : FileCloser) : s.notifyWorker.files = s.files := by
  rw [files, files, notifyWorker_closed, inHand_notifyWorker, notifyWorker_pending]

theorem files_pushed (s : FileCloser) (file : Option PoolFile) :
    files { s with pending := s.pending ++ [file] } = s.files ++ (closable file).toList := by
  have hand : inHand { s with pending := s.pending ++ [file] } = s.inHand := rfl
  simp only [files, hand, List.filterMap_append, filterMap_closable_cons, List.filterMap_nil, List.append_nil,
    List.append_assoc]

/-- A step brings in the file it schedules, behind all others, and loses none. -/
theorem files_step {s s' : FileCloser} {e : CloserEvent} (handFree : s.exit = .remaining → s.worker = .returned)
    (taken : s.step e = some s') : s'.files = s.files ++ e.scheduled?.toList := by
  cases step_cases taken with
  | queued => exact files_pushed s _
  | notified => rw [files_notifyWorker, files_pushed, CloserEvent.scheduled?]
  | returned testing => simp [files, inHand, testing, CloserEvent.scheduled?]
  | swapped testing => simp [files, inHand, testing, CloserEvent.scheduled?]
  | slept testing => simp [files, inHand, testing, CloserEvent.scheduled?]
  | @closed file rest closing =>
    simp only [files, inHand, closing, CloserEvent.scheduled?, Option.toList_none, List.append_nil, List.cons_append,
      filterMap_closable_cons, List.append_assoc]
  | looped closing => simp [files, inHand, closing, CloserEvent.scheduled?]
  | woken asleep => simp [files, inHand, asleep, CloserEvent.scheduled?]
  | flagged | joined | destroyed => exact (List.append_nil _).symm
  | joining =>
    have same : files { s.notifyWorker with exit := .joining } = s.notifyWorker.files := rfl
    rw [same, files_notifyWorker]
    exact (List.append_nil _).symm
  | @remaining file rest before front =>
    simp only [files, inHand, handFree before, front, CloserEvent.scheduled?, Option.toList_none, List.append_nil,
      List.nil_append, filterMap_closable_cons, List.append_assoc]

/-- Where the threads can stand together. The worker sleeps only on less than a batch, and past the
flag only until the destructor notifies. -/
structure Waits (s : FileCloser) : Prop where
  few : s.worker = .asleep → s.pending.length < s.batchSize
  awake : s.worker = .asleep → s.exit = .running ∨ s.exit = .flagged
  down : s.shutdown = true ↔ s.exit ≠ .running
  returned : s.worker = .returned → s.shutdown = true
  joined : s.exit = .remaining ∨ s.exit = .destroyed → s.worker = .returned
  emptied : s.exit = .destroyed → s.pending = []

theorem Waits.start (batchSize : Nat) : Waits (start batchSize) := by
  refine ⟨?_, ?_, ?_, ?_, ?_, ?_⟩ <;> simp [FileCloser.start]

theorem notifyWorker_awake (s : FileCloser) : s.notifyWorker.worker ≠ .asleep := by
  rcases notifyWorker_worker s with ⟨same, awake⟩ | ⟨testing, -⟩
  · exact same ▸ awake
  · simp [testing]

theorem notifyWorker_returned {s : FileCloser} (returned : s.notifyWorker.worker = .returned) :
    s.worker = .returned := by
  rcases notifyWorker_worker s with ⟨same, -⟩ | ⟨testing, -⟩
  · exact same ▸ returned
  · rw [testing] at returned
    cases returned

theorem notifyWorker_of_returned {s : FileCloser} (returned : s.worker = .returned) :
    s.notifyWorker.worker = .returned := by
  rcases notifyWorker_worker s with ⟨same, -⟩ | ⟨-, asleep⟩
  · exact same.trans returned
  · rw [asleep] at returned
    cases returned

/-- The worker moves, and not to its sleep. -/
theorem Waits.moved {s s' : FileCloser} (waits : Waits s) (awake : s'.worker ≠ .asleep) (busy : s.worker ≠ .returned)
    (down : s'.worker = .returned → s.shutdown = true) (exit : s'.exit = s.exit) (shutdown : s'.shutdown = s.shutdown) :
    Waits s' := by
  have early : ¬ (s.exit = .remaining ∨ s.exit = .destroyed) := fun late => busy (waits.joined late)
  refine ⟨fun asleep => absurd asleep awake, fun asleep => absurd asleep awake, ?_, fun returned => ?_, fun late => ?_,
    fun destroyed => ?_⟩
  · rw [exit, shutdown]
    exact waits.down
  · rw [shutdown]
    exact down returned
  · exact absurd (exit ▸ late) early
  · exact absurd (.inr (exit ▸ destroyed)) early

theorem Waits.step {s s' : FileCloser} {e : CloserEvent} (waits : Waits s) (taken : s.step e = some s') : Waits s' := by
  cases step_cases taken with
  | queued before few =>
    refine ⟨fun _ => by simpa using few, waits.awake, waits.down, waits.returned, waits.joined, fun destroyed => ?_⟩
    rcases before with at' | at' | at' <;> rw [at'] at destroyed <;> cases destroyed
  | @notified file before =>
    refine ⟨fun asleep => absurd asleep (notifyWorker_awake _), fun asleep => absurd asleep (notifyWorker_awake _), ?_,
      fun returned => ?_, fun late => ?_, fun destroyed => ?_⟩
    · simpa using waits.down
    · have before := notifyWorker_returned returned
      simpa using waits.returned before
    · exact notifyWorker_of_returned (waits.joined (by simpa using late))
    · rw [notifyWorker_exit] at destroyed
      rcases before with at' | at' | at' <;> rw [at'] at destroyed <;> cases destroyed
  | returned testing down => exact waits.moved (by simp) (by simp [testing]) (fun _ => down) rfl rfl
  | swapped testing => exact waits.moved (by simp) (by simp [testing]) (by simp) rfl rfl
  | slept testing few up =>
    have running : s.exit = .running := by
      by_contra past
      have down := waits.down.mpr past
      rw [up] at down
      cases down
    refine ⟨fun _ => few, fun _ => .inl running, waits.down, by simp, fun late => ?_, fun destroyed => ?_⟩
    · rcases late with at' | at' <;> rw [running] at at' <;> cases at'
    · rw [running] at destroyed
      cases destroyed
  | closed closing => exact waits.moved (by simp) (by simp [closing]) (by simp) rfl rfl
  | looped closing => exact waits.moved (by simp) (by simp [closing]) (by simp) rfl rfl
  | woken asleep => exact waits.moved (by simp) (by simp [asleep]) (by simp) rfl rfl
  | flagged before =>
    refine ⟨waits.few, fun _ => .inr rfl, by simp, fun _ => rfl, by simp, by simp⟩
  | joining before =>
    refine ⟨fun asleep => absurd asleep (notifyWorker_awake s), fun asleep => absurd asleep (notifyWorker_awake s), ?_,
      fun returned => ?_, by simp, by simp⟩
    · simpa [before] using waits.down
    · simpa using waits.returned (notifyWorker_returned returned)
  | joined before returned =>
    refine ⟨waits.few, fun asleep => ?_, ?_, waits.returned, fun _ => returned, by simp⟩
    · rw [returned] at asleep
      cases asleep
    · simpa [before] using waits.down
  | remaining before front =>
    refine ⟨fun asleep => ?_, waits.awake, waits.down, waits.returned, waits.joined, fun destroyed => ?_⟩
    · have returned := waits.joined (.inl before)
      rw [returned] at asleep
      cases asleep
    · rw [before] at destroyed
      cases destroyed
  | destroyed before nothing =>
    have returned := waits.joined (.inl before)
    refine ⟨waits.few, fun asleep => ?_, ?_, waits.returned, fun _ => returned, fun _ => nothing⟩
    · rw [returned] at asleep
      cases asleep
    · simpa [before] using waits.down

theorem shutdown_step {s s' : FileCloser} {e : CloserEvent} (taken : s.step e = some s') (down : s.shutdown = true) :
    s'.shutdown = true := by
  cases step_cases taken with
  | flagged => rfl
  | notified | joining => simpa using down
  | queued | returned | swapped | slept | closed | looped | woken | joined | remaining | destroyed => exact down

/-- The steps that the worker and the destructor have still to make, once the destructor is called. -/
def work (s : FileCloser) : Nat :=
  3 * s.pending.length +
    (match s.worker with
      | .asleep => 2
      | .testing => 1
      | .closing toClose => 2 + toClose.length
      | .returned => 0) +
    match s.exit with
      | .running | .flagged => 3
      | .joining => 2
      | .remaining => 1
      | .destroyed => 0

theorem work_notifyWorker (s : FileCloser) : s.notifyWorker.work ≤ s.work := by
  rcases notifyWorker_worker s with ⟨same, -⟩ | ⟨testing, asleep⟩
  · simp [work, same]
  · simp [work, testing, asleep]

theorem work_pushed (s : FileCloser) (file : Option PoolFile) :
    work { s with pending := s.pending ++ [file] } = s.work + 3 := by
  simp only [work, List.length_append, List.length_singleton]
  omega

/-- Past the flag no step goes back: each costs one of the steps still to make. -/
theorem work_step {s s' : FileCloser} {e : CloserEvent} (called : s.exit ≠ .running) (waits : Waits s)
    (taken : s.step e = some s') : s'.work + 1 ≤ s.work + e.income := by
  have down := waits.down.mpr called
  cases step_cases taken with
  | queued =>
    rw [work_pushed]
    rfl
  | @notified file =>
    have less := work_notifyWorker { s with pending := s.pending ++ [file] }
    rw [work_pushed] at less
    exact Nat.succ_le_succ less
  | returned testing => simp [work, testing, CloserEvent.income]
  | swapped testing _ more =>
    have some' : 0 < s.pending.length := List.length_pos_of_ne_nil (more down)
    simp only [work, testing, CloserEvent.income, List.length_nil]
    omega
  | slept _ _ up =>
    rw [up] at down
    cases down
  | closed closing => simp [work, closing, CloserEvent.income]
  | looped closing => simp [work, closing, CloserEvent.income]
  | woken asleep => simp [work, asleep, CloserEvent.income]
  | flagged before => exact absurd before called
  | joining before =>
    have less := work_notifyWorker s
    simp [work, before, CloserEvent.income] at less ⊢
    omega
  | joined before => simp [work, before, CloserEvent.income]
  | remaining before front => simp [work, front, CloserEvent.income]
  | destroyed before => simp [work, before, CloserEvent.income]

/-- Until the destructor is done, the worker or the destructor has a step to make. -/
theorem enabled {s : FileCloser} (waits : Waits s) (called : s.exit ≠ .running) (unfinished : s.exit ≠ .destroyed) :
    ∃ e s', CloserEvent.income e = 0 ∧ s.step e = some s' := by
  have down := waits.down.mpr called
  cases exit : s.exit with
  | running => exact absurd exit called
  | flagged => exact ⟨.notify, _, rfl, if_pos exit⟩
  | joining =>
    cases worker : s.worker with
    | testing =>
      by_cases last : s.pending = []
      · exact ⟨.test, { s with worker := .returned }, rfl, by simp [FileCloser.step, worker, due, down, last]⟩
      · exact ⟨.test, { s with worker := .closing s.pending, pending := [] }, rfl,
          by simp [FileCloser.step, worker, due, down, last]⟩
    | asleep =>
      rcases waits.awake worker with before | before <;> rw [exit] at before <;> cases before
    | closing toClose =>
      cases toClose with
      | nil => exact ⟨.loop, _, rfl, if_pos worker⟩
      | cons file rest =>
        exact ⟨.close, { s with worker := .closing rest, closed := s.closed ++ (closable file).toList }, rfl,
          by simp [FileCloser.step, worker]⟩
    | returned => exact ⟨.join, _, rfl, if_pos ⟨exit, worker⟩⟩
  | remaining =>
    cases pending : s.pending with
    | nil => exact ⟨.destroyed, _, rfl, if_pos ⟨exit, pending⟩⟩
    | cons file rest =>
      exact ⟨.closeRemaining, { s with pending := rest, closed := s.closed ++ (closable file).toList }, rfl,
        by simp [FileCloser.step, pending, exit]⟩
  | destroyed => exact absurd exit unfinished

section Runs

variable {batchSize : Nat} {trace : List CloserEvent} {s : FileCloser}

/-- The steps of the closer, as runs take them. -/
abbrev Next (s : FileCloser) (e : CloserEvent) (s' : FileCloser) : Prop := s.step e = some s'

theorem Waits.of_run (run : Run Next (FileCloser.start batchSize) trace s) : Waits s :=
  run.invariant (P := fun _ s => Waits s) (.start batchSize) fun _ _ _ _ _ waits taken => waits.step taken

theorem conserved (run : Run Next (FileCloser.start batchSize) trace s) : s.files = scheduled trace := by
  refine run.invariant (P := fun trace s => s.files = scheduled trace) rfl ?_
  intro trace s e s' before same taken
  rw [files_step (fun remaining => (Waits.of_run before).joined (.inl remaining)) taken, same, scheduled, scheduled,
    List.filterMap_snoc]

theorem closed_of_destroyed (run : Run Next (FileCloser.start batchSize) trace s) (destroyed : s.exit = .destroyed) :
    s.closed = scheduled trace := by
  have waits := Waits.of_run run
  have hand : s.inHand = [] := by rw [inHand, waits.joined (.inr destroyed)]
  rw [← conserved run, files, hand, waits.emptied destroyed]
  simp

/-- In every interleaving, the files closed so far, those the worker holds and those pending are the
files scheduled, each once and in the order of the calls. The worker sleeps only on less than a
batch, and past the destructor's notification not at all. -/
theorem closes_in_order (run : Run Next (FileCloser.start batchSize) trace s) :
    s.closed ++ (s.inHand ++ s.pending).filterMap closable = scheduled trace ∧
      (s.worker = .asleep → s.pending.length < s.batchSize ∧ (s.exit = .running ∨ s.exit = .flagged)) :=
  ⟨conserved run, fun asleep => ⟨(Waits.of_run run).few asleep, (Waits.of_run run).awake asleep⟩⟩

/-- A destructor that is called returns, with every file scheduled closed: whatever the threads do from
then on, they take no more steps than the state and the later calls of `scheduleClose` pay for; as
long as the destructor has not returned, the worker or the destructor can step; and when it has, the
files closed are those scheduled, in order. -/
theorem destructor_returns (run : Run Next (FileCloser.start batchSize) trace s) (called : s.exit ≠ .running)
    {later : List CloserEvent} {s' : FileCloser} (rest : Run Next s later s') :
    later.length + s'.work ≤ s.work + (later.map CloserEvent.income).sum ∧
      (s'.exit ≠ .destroyed → ∃ e s'', e.income = 0 ∧ Next s' e s'') ∧
      (s'.exit = .destroyed → s'.closed = scheduled (trace ++ later)) := by
  have kept : ∀ s e s', s.exit ≠ .running ∧ Waits s → Next s e s' → s'.exit ≠ .running ∧ Waits s' := by
    rintro s e s' ⟨past, waits⟩ taken
    have waits' := waits.step taken
    exact ⟨waits'.down.mp (shutdown_step taken (waits.down.mpr past)), waits'⟩
  obtain ⟨⟨past, waits⟩, bound⟩ := rest.length_le (fun s => s.exit ≠ .running ∧ Waits s) work CloserEvent.income kept
    (fun s e s' here taken => work_step here.1 here.2 taken) ⟨called, Waits.of_run run⟩
  exact ⟨bound, enabled waits past, closed_of_destroyed (run.append rest)⟩

end Runs

/-- A batch of two with a null pointer in it wakes the worker, which then has one stream to close. -/
theorem closes_in_order_batch : ∃ s, Run Next (FileCloser.start 2)
    [.test, .scheduleClose (some ⟨[97], true⟩), .scheduleClose none, .test, .close] s ∧
      s.closed ++ (s.inHand ++ s.pending).filterMap closable = [⟨[97], true⟩] ∧ s.inHand = [none] := by
  obtain ⟨s, run, held⟩ : ∃ s, Run (Allowed FileCloser.step fun _ _ => True) (FileCloser.start 2)
      [.test, .scheduleClose (some ⟨[97], true⟩), .scheduleClose none, .test, .close] s ∧ s.inHand = [none] :=
    Run.exists_of_any (by decide +kernel)
  have run' : Run Next _ _ s := run.mono fun _ _ _ taken => taken.2
  exact ⟨s, run', (closes_in_order run').1.trans (by decide), held⟩

/-- A file scheduled behind the flag while the worker is still to test: it is closed all the same. -/
theorem destructor_returns_late : ∃ s s', Run Next (FileCloser.start 4)
    [.scheduleClose (some ⟨[97], true⟩), .test, .destroy] s ∧
    Run Next s [.scheduleClose (some ⟨[98], true⟩), .test, .notify, .close, .close, .loop, .test, .join,
      .destroyed] s' ∧
      s'.closed = [⟨[97], true⟩, ⟨[98], true⟩] := by
  obtain ⟨s, first, second⟩ : ∃ s, Run (Allowed FileCloser.step fun _ _ => True) (FileCloser.start 4)
      [.scheduleClose (some ⟨[97], true⟩), .test, .destroy] s ∧
      (([.scheduleClose (some ⟨[98], true⟩), .test, .notify, .close, .close, .loop, .test, .join,
        .destroyed] : List CloserEvent).foldlM (guarded FileCloser.step fun _ _ => True) s).any
          (fun s' => s'.exit = .destroyed) ∧ s.exit ≠ .running := Run.exists_of_any (by decide +kernel)
  obtain ⟨s', rest, destroyed⟩ := Run.exists_of_any second.1
  have run : Run Next _ _ s := first.mono fun _ _ _ taken => taken.2
  have run' : Run Next s _ s' := rest.mono fun _ _ _ taken => taken.2
  exact ⟨s, s', run, run', ((destructor_returns run second.2 run').2.2 destroyed).trans (by decide)⟩

end FileCloser

end LSMIO

import LSMIO.StrandedAcquire

namespace LSMIO

/-- The worker's own steps. -/
def SharedPoolEvent.ofWorker : SharedPoolEvent → Bool
  | .test | .create _ | .insert _ | .spuriousWorker => true
  | .call _ | .acquire _ | .spurious _ | .shutdown => false

namespace SharedPool

variable {s s' : SharedPool} {e : SharedPoolEvent}

/-- The steps that the worker still makes behind a shutdown. -/
def workerSteps (s : SharedPool) : Nat := match s.worker with
  | .asleep | .needed => 2
  | .testing | .created _ => 1
  | .returned => 0

@[simp] theorem notifyWorker_sleepers (s : SharedPool) : s.notifyWorker.sleepers = s.sleepers := by
  unfold notifyWorker
  split <;> rfl

theorem notifyWorker_of_awake (awake : s.worker ≠ .asleep) : s.notifyWorker = s := if_neg awake

/-- The worker sleeps on a pool that nobody is shutting down. -/
theorem awake_step (awake : s.shutdown = true → s.worker ≠ .asleep) (taken : s.step e = some s')
    (down : s'.shutdown = true) :
    s'.worker ≠ .asleep := by
  cases step_cases taken with
  | threads => exact awake down
  | returned | needed | created | closed | inserted | woken => simp
  | acquired | down => exact notifyWorker_awake _
  | slept testing full =>
    have flag : s.shutdown = true := down
    have phases := congrArg (Option.map worker) taken
    simp [step, testing, flag] at phases

/-- What a step does behind the flag: files only leave the pool, for a caller; nobody who sleeps is notified;
and the worker comes nearer to its return. -/
structure Settles (s : SharedPool) (e : SharedPoolEvent) (s' : SharedPool) : Prop where
  down : s'.shutdown = true
  files : s'.acquired ++ s'.pool = s.acquired ++ s.pool
  worker : s'.workerSteps + (if e.ofWorker then 1 else 0) ≤ s.workerSteps
  sleepers : ∀ t ∈ s.sleepers, e ≠ .spurious t → t ∈ s'.sleepers

theorem settles_step (down : s.shutdown = true) (awake : s.worker ≠ .asleep) (taken : s.step e = some s') :
    Settles s e s' := by
  cases e with
  | test =>
    simp only [step, down, if_true] at taken
    split at taken
    next testing =>
      cases taken
      exact ⟨rfl, rfl, by simp [workerSteps, testing, SharedPoolEvent.ofWorker], fun _ asleep _ => asleep⟩
    next => cases taken
  | create isOpen =>
    simp only [step] at taken
    split at taken
    next needed =>
      cases taken
      refine ⟨down, rfl, ?_, fun _ asleep _ => asleep⟩
      cases isOpen <;> simp [workerSteps, needed, SharedPoolEvent.ofWorker]
    next => cases taken
  | insert woken =>
    simp only [step, down, if_true] at taken
    split at taken
    next file made =>
      split at taken
      next =>
        cases taken
        exact ⟨rfl, rfl, by simp [workerSteps, made, SharedPoolEvent.ofWorker], fun _ asleep _ => asleep⟩
      next => cases taken
    next => cases taken
  | call t =>
    simp only [step] at taken
    split at taken
    next => cases taken
    next =>
      cases taken
      exact ⟨down, rfl, le_rfl, fun _ asleep _ => asleep⟩
  | acquire t =>
    simp only [step, down, if_true] at taken
    split at taken
    next =>
      split at taken
      next file rest front =>
        rw [notifyWorker_of_awake (by exact awake)] at taken
        cases taken
        exact ⟨rfl, by simp [front], le_rfl, fun _ asleep _ => asleep⟩
      next =>
        cases taken
        exact ⟨rfl, rfl, le_rfl, fun _ asleep _ => asleep⟩
    next => cases taken
  | spurious t =>
    simp only [step] at taken
    split at taken
    next =>
      cases taken
      refine ⟨down, rfl, le_rfl, fun u asleep other => ?_⟩
      have different : u ≠ t := by
        rintro rfl
        exact other rfl
      exact (List.mem_erase_of_ne different).mpr asleep
    next => cases taken
  | spuriousWorker =>
    simp only [step] at taken
    split at taken
    next asleep => exact absurd asleep awake
    next => cases taken
  | shutdown =>
    cases taken
    rw [notifyWorker_of_awake (by exact awake)]
    exact ⟨rfl, rfl, le_rfl, fun _ asleep _ => asleep⟩

/-- The worker that has not returned has a step to make. -/
theorem worker_enabled (down : s.shutdown = true) (awake : s.worker ≠ .asleep) (unfinished : s.worker ≠ .returned) :
    ∃ e s', e.ofWorker = true ∧ s.step e = some s' := by
  cases worker : s.worker with
  | testing => exact ⟨.test, { s with worker := .returned }, rfl, by simp [step, worker, down]⟩
  | asleep => exact absurd worker awake
  | needed => exact ⟨.create false, _, rfl, if_pos worker⟩
  | created file => exact ⟨.insert none, { s with worker := .returned }, rfl, by simp [step, worker, down]⟩
  | returned => exact absurd worker unfinished

variable {poolSize : Nat} {startId : UInt64} {trace later : List SharedPoolEvent}

/-- Behind the shutdown flag, in every interleaving: the worker makes two more steps at most, and has one to make
until it has returned; the files handed out and those left are the ones that were there, in order; and a caller that
sleeps on the empty pool is not woken by any thread. -/
theorem shutdown_settles (run : Run (Allowed SharedPool.step fun _ _ => True) (start poolSize startId) trace s)
    (down : s.shutdown = true) (rest : Run (Allowed SharedPool.step fun _ _ => True) s later s') :
    (later.filter SharedPoolEvent.ofWorker).length + s'.workerSteps ≤ s.workerSteps ∧ s.workerSteps ≤ 2 ∧
      (s'.worker ≠ .returned → ∃ e s'', e.ofWorker = true ∧ s'.step e = some s'') ∧
      s'.acquired ++ s'.pool = s.acquired ++ s.pool ∧
      ∀ t ∈ s.sleepers, .spurious t ∉ later → t ∈ s'.sleepers := by
  have awake := run.invariant (P := fun _ s => s.shutdown = true → s.worker ≠ .asleep) (fun flag => by cases flag)
    fun _ _ _ _ _ awake taken => awake_step awake taken.2
  obtain ⟨down', awake', steps, files, sleepers⟩ :=
    rest.invariant (P := fun later s' => s'.shutdown = true ∧ s'.worker ≠ .asleep ∧
      (later.filter SharedPoolEvent.ofWorker).length + s'.workerSteps ≤ s.workerSteps ∧
      s'.acquired ++ s'.pool = s.acquired ++ s.pool ∧ ∀ t ∈ s.sleepers, .spurious t ∉ later → t ∈ s'.sleepers)
    ⟨down, awake down, by simp, rfl, fun _ asleep _ => asleep⟩ (by
      rintro later s' e s'' - ⟨down', awake', steps, files, sleepers⟩ ⟨-, taken⟩
      have settles := settles_step down' awake' taken
      refine ⟨settles.down, awake_step (fun _ => awake') taken settles.down, ?_, settles.files.trans files,
      fun t asleep never => ?_⟩
      · have paid := settles.worker
        rw [List.filter_append, List.length_append]
        cases own : e.ofWorker <;> simp only [own, List.filter_cons, List.filter_nil, if_true, Bool.false_eq_true,
          if_false, List.length_cons, List.length_nil] at paid ⊢ <;> omega
      · rw [List.mem_append, List.mem_singleton, not_or] at never
        exact settles.sleepers t (sleepers t asleep never.1) fun same => never.2 same.symm)
  refine ⟨steps, ?_, worker_enabled down' awake', files, sleepers⟩
  unfold workerSteps
  split <;> decide

/-- A caller asleep on a pool of size zero when the destructor sets the flag: the worker returns, the caller sleeps
on. -/
theorem shutdown_settles_zero : ∃ s s' : SharedPool, s.sleepers = [0] ∧ s'.worker = .returned ∧ 0 ∈ s'.sleepers := by
  obtain ⟨s, run, down, asleep, after⟩ : ∃ s, Run (Allowed SharedPool.step fun _ _ => True) (start 0 1)
      [.test, .call 0, .acquire 0, .shutdown] s ∧ s.shutdown = true ∧ s.sleepers = [0] ∧
      (([.test, .call 1, .acquire 1] : List SharedPoolEvent).foldlM (guarded SharedPool.step fun _ _ => True) s).any
        (fun s' => s'.worker = .returned) := Run.exists_of_any (by decide +kernel)
  obtain ⟨s', rest, returned⟩ := Run.exists_of_any after
  exact ⟨s, s', asleep, returned, (shutdown_settles run down rest).2.2.2.2 0 (by simp [asleep]) (by decide)⟩

end SharedPool

end LSMIO

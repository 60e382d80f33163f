import LSMIO.PoolThreads

namespace LSMIO.SharedPool

/-- A thread waits in `acquire` on an empty pool while the worker sleeps on
`_cv` and no notification is on its way: a notified worker is about to test. -/
def Stranded (s : SharedPool) : Prop := s.shutdown = false ∧ s.pool = [] ∧ s.sleepers ≠ [] ∧ s.worker = .asleep

instance : DecidablePred Stranded := fun s =>
  inferInstanceAs (Decidable (s.shutdown = false ∧ s.pool = [] ∧ s.sleepers ≠ [] ∧ s.worker = .asleep))

def OpensSucceed (_ : SharedPool) (e : SharedPoolEvent) : Prop := e ≠ .create false

instance : DecidableRel OpensSucceed := fun _ e => inferInstanceAs (Decidable (e ≠ .create false))

/-- The worker sleeps on a full pool: what empties it wakes the worker. -/
structure SleepsFull (poolSize : Nat) (s : SharedPool) : Prop where
  size : s.poolSize = poolSize
  full : s.worker = .asleep → s.poolSize ≤ s.pool.length

variable {poolSize : Nat} {s s' : SharedPool}

theorem notifyWorker_awake (s : SharedPool) : s.notifyWorker.worker ≠ .asleep := by
  rcases notifyWorker_worker s with ⟨same, awake⟩ | ⟨testing, -⟩
  · exact same ▸ awake
  · simp [testing]

theorem SleepsFull.step {e : SharedPoolEvent} (sleeps : SleepsFull poolSize s) (taken : s.step e = some s') :
    SleepsFull poolSize s' := by
  cases step_cases taken with
  | threads => exact ⟨sleeps.size, sleeps.full⟩
  | slept _ full => exact ⟨sleeps.size, fun _ => full⟩
  | returned | needed | created | closed | inserted | woken =>
    refine ⟨sleeps.size, fun asleep => ?_⟩
    cases asleep
  | acquired | down => exact ⟨by simpa using sleeps.size, fun asleep => absurd asleep (notifyWorker_awake _)⟩

theorem SleepsFull.of_run {startId : UInt64} {trace : List SharedPoolEvent} {ok : SharedPool → SharedPoolEvent → Prop}
    (run : Run (Allowed SharedPool.step ok) (start poolSize startId) trace s) : SleepsFull poolSize s :=
  run.invariant (P := fun _ s => SleepsFull poolSize s) ⟨rfl, fun asleep => by cases asleep⟩
    fun _ _ _ _ _ sleeps taken => sleeps.step taken.2

/-- A thread waiting in `acquire` is stranded by a sleeping worker in some run
exactly when the pool has size zero. -/
theorem never_stranded_iff (poolSize : Nat) (startId : UInt64) :
    (∀ trace s, Run (Allowed step OpensSucceed) (start poolSize startId) trace s → ¬ Stranded s) ↔ poolSize ≠ 0 := by
  constructor
  · rintro never rfl
    refine never [.test, .call 0, .acquire 0] { start 0 startId with worker := .asleep, sleepers := [0] } ?_
      ⟨rfl, rfl, by simp, rfl⟩
    refine Run.of_foldlM ?_
    simp [guarded, OpensSucceed, step, start]
  · rintro positive trace s run ⟨-, empty, -, asleep⟩
    have sleeps := SleepsFull.of_run run
    have full := sleeps.full asleep
    rw [sleeps.size, empty, List.length_nil] at full
    exact positive (Nat.le_zero.mp full)

/-- The sizes of the memtables' queue are checked, that of the pool is not: with
size zero the first flush sleeps in `acquire`, and the worker does too. -/
theorem stranded_without_pool :
    (Config.ofGlobal ⟨0, 0, 0, false⟩).maxImmutableMemtables = 4 ∧
      ¬ ∀ (g : LSMIOConfig) (startId : UInt64) (trace : List SharedPoolEvent) (s : SharedPool),
        Run (Allowed step OpensSucceed) (start (Config.ofGlobal g).filePoolSize startId) trace s → ¬ Stranded s := by
  refine ⟨rfl, fun never => ?_⟩
  obtain ⟨s, run, stranded⟩ :
    ∃ s, Run (Allowed step OpensSucceed) (start (Config.ofGlobal ⟨0, 0, 0, false⟩).filePoolSize 0)
      [.test, .call 0, .acquire 0] s ∧ Stranded s := Run.exists_of_any (by decide +kernel)
  exact never _ _ _ s run stranded

/-- Without a pool the worker makes no file, and no call of `acquire` ever gets one. -/
theorem acquired_nil_of_poolSize_zero {startId : UInt64} {trace : List SharedPoolEvent}
    (run : Run (Allowed step fun _ _ => True) (start 0 startId) trace s) : s.acquired = [] := by
  have idle : (s.poolSize = 0 ∧ s.pool = [] ∧ s.acquired = []) ∧ s.worker ≠ .needed ∧
    ∀ file, s.worker ≠ .created file := by
    refine run.invariant (P := fun _ s => (s.poolSize = 0 ∧ s.pool = [] ∧ s.acquired = []) ∧ s.worker ≠ .needed ∧
      ∀ file, s.worker ≠ .created file) ⟨⟨rfl, rfl, rfl⟩, by simp [start], by simp [start]⟩ ?_
    rintro trace s e s' - ⟨⟨size, empty, none⟩, notNeeded, notCreated⟩ ⟨-, taken⟩
    cases step_cases taken with
    | threads => exact ⟨⟨size, empty, none⟩, notNeeded, notCreated⟩
    | needed _ room =>
      rw [size] at room
      cases room
    | returned | slept | woken => exact ⟨⟨size, empty, none⟩, by simp, by simp⟩
    | created needed | closed needed => exact absurd needed notNeeded
    | inserted made => exact absurd made (notCreated _)
    | acquired front =>
      rw [empty] at front
      cases front
    | down =>
      refine ⟨⟨by simpa using size, by simpa using empty, by simpa using none⟩, ?_⟩
      rcases notifyWorker_worker { s with shutdown := true } with ⟨same, -⟩ | ⟨testing, -⟩
      · rw [same]
        exact ⟨notNeeded, notCreated⟩
      · simp [testing]
  exact idle.1.2.2

end LSMIO.SharedPool

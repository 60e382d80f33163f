import LSMIO.RecoveryFiles
import LSMIO.StoreNative

namespace LSMIO

/-- A file of the pool: its path, and whether its stream is open. -/
structure PoolFile where
  path : FileName
  isOpen : Bool
  deriving DecidableEq

/-- Where the worker stands in `replenish`: before the lock and the test of its
wait, asleep on `_cv`, past the test, with a file made and not inserted, or returned. -/
inductive WorkerPhase
  | testing
  | asleep
  | needed
  | created (file : PoolFile)
  | returned
  deriving DecidableEq

/-- The pool with its threads. `calling` are the threads in `acquire` before
the lock and the test of their wait, `sleepers` those asleep on `_cv_wait`;
all others are outside. `acquired` are the files handed out, oldest first. -/
structure SharedPool where
  poolSize : Nat
  pool : List PoolFile
  nextId : UInt64
  shutdown : Bool
  worker : WorkerPhase
  calling : List Tid
  sleepers : List Tid
  acquired : List PoolFile

/-- The steps of the threads. A test and what follows it under the lock is one
step, with the release of the lock when the thread falls asleep. `insert` names
the sleeper that `notify_one` wakes. -/
inductive SharedPoolEvent
  | test
  | create (isOpen : Bool)
  | insert (woken : Option Tid)
  | call (t : Tid)
  | acquire (t : Tid)
  | spurious (t : Tid)
  | spuriousWorker
  | shutdown
  deriving DecidableEq

/-- A step of the store's pool: one of the worker's, or the removal of the front. -/
def FilePool.Moves (p : FilePool) : Option Nat → FilePool → Prop
  | none, p' => ∃ event dir dir', p.replenish dir event = some (p', dir')
  | some id, p' => p.acquire = some (id, p')

namespace SharedPool

/-- The constructor. -/
def start (poolSize : Nat) (startId : UInt64) : SharedPool :=
  { poolSize := poolSize
    pool := []
    nextId := startId
    shutdown := false
    worker := .testing
    calling := []
    sleepers := []
    acquired := [] }

/-- A notification on `_cv`: a worker that sleeps is about to test again. -/
def notifyWorker (s : SharedPool) : SharedPool := if s.worker = .asleep then { s with worker := .testing } else s

/-- A sleeper on `_cv_wait` is about to test again. -/
def wake (s : SharedPool) (t : Tid) : SharedPool :=
  { s with sleepers := s.sleepers.erase t, calling := t :: s.calling }

def step (s : SharedPool) : SharedPoolEvent → Option SharedPool
  | .test =>
    if s.worker = .testing then
      if s.shutdown then some { s with worker := .returned }
      else if s.pool.length < s.poolSize then some { s with worker := .needed }
      else some { s with worker := .asleep }
    else none
  | .create isOpen =>
    if s.worker = .needed then
      let file : PoolFile := ⟨fileName s.nextId.toNat, isOpen⟩
      some { s with nextId := s.nextId + 1, worker := if file.isOpen then .created file else .testing }
    else none
  | .insert woken => match s.worker with
    | .created file =>
      if s.shutdown then if woken = none then some { s with worker := .returned } else none
      else
        let s := { s with pool := s.pool ++ [file], worker := .testing }
        match woken with
        | none => if s.sleepers = [] then some s else none
        | some t => if t ∈ s.sleepers then some (s.wake t) else none
    | _ => none
  | .call t => if t ∈ s.calling ∨ t ∈ s.sleepers then none else some { s with calling := t :: s.calling }
  | .acquire t =>
    if t ∈ s.calling then
      match s.pool with
      | file :: rest =>
        some (notifyWorker { s with calling := s.calling.erase t, pool := rest, acquired := s.acquired ++ [file] })
      | [] =>
        if s.shutdown then some { s with calling := s.calling.erase t }
        else some { s with calling := s.calling.erase t, sleepers := s.sleepers ++ [t] }
    else none
  | .spurious t => if t ∈ s.sleepers then some (s.wake t) else none
  | .spuriousWorker => if s.worker = .asleep then some { s with worker := .testing } else none
  | .shutdown => some (notifyWorker { s with shutdown := true })

/-- `fetch_add` does not wrap the counter. -/
def NoWrap (s : SharedPool) : SharedPoolEvent → Prop
  | .create _ => s.nextId.toNat + 1 < 2 ^ 64
  | _ => True

instance : DecidableRel NoWrap := fun s e => by
  cases e <;> unfold NoWrap <;> infer_instance

/-- What a step does to the pool and its worker, the threads in `acquire` apart. -/
inductive Step (s : SharedPool) : SharedPoolEvent → SharedPool → Prop
  | threads {e : SharedPoolEvent} {calling sleepers : List Tid} :
      Step s e { s with calling := calling, sleepers := sleepers }
  | returned {e : SharedPoolEvent} (down : s.shutdown = true) : Step s e { s with worker := .returned }
  | needed (testing : s.worker = .testing) (room : s.pool.length < s.poolSize) :
    Step s .test { s with worker := .needed }
  | slept (testing : s.worker = .testing) (full : s.poolSize ≤ s.pool.length) :
    Step s .test { s with worker := .asleep }
  | created (needed : s.worker = .needed) : Step s (.create true)
      { s with nextId := s.nextId + 1, worker := .created ⟨fileName s.nextId.toNat, true⟩ }
  | closed (needed : s.worker = .needed) : Step s (.create false) { s with nextId := s.nextId + 1, worker := .testing }
  | inserted {woken : Option Tid} {file : PoolFile} {calling sleepers : List Tid} (made : s.worker = .created file) :
      Step s (.insert woken)
        { s with pool := s.pool ++ [file], worker := .testing, calling := calling, sleepers := sleepers }
  | acquired {t : Tid} {file : PoolFile} {rest : List PoolFile} {calling : List Tid} (front : s.pool = file :: rest) :
      Step s (.acquire t)
        (notifyWorker { s with calling := calling, pool := rest, acquired := s.acquired ++ [file] })
  | woken {e : SharedPoolEvent} (asleep : s.worker = .asleep) : Step s e { s with worker := .testing }
  | down : Step s .shutdown (notifyWorker { s with shutdown := true })

theorem step_cases {s s' : SharedPool} {e : SharedPoolEvent} (taken : s.step e = some s') : Step s e s' := by
  cases e with
  | test =>
    simp only [step] at taken
    split at taken
    next testing =>
      split at taken
      next down =>
        cases taken
        exact .returned down
      next =>
        split at taken
        next room =>
          cases taken
          exact .needed testing room
        next full =>
          cases taken
          exact .slept testing (Nat.le_of_not_lt full)
    next => cases taken
  | create isOpen =>
    simp only [step] at taken
    split at taken
    next needed =>
      cases isOpen with
      | true =>
        cases taken
        exact .created needed
      | false =>
        cases taken
        exact .closed needed
    next => cases taken
  | insert woken =>
    simp only [step] at taken
    split at taken
    next file made =>
      split at taken
      next down =>
        split at taken
        next =>
          cases taken
          exact .returned down
        next => cases taken
      next =>
        split at taken
        · split at taken
          next =>
            cases taken
            exact .inserted made
          next => cases taken
        · split at taken
          next =>
            cases taken
            exact .inserted made
          next => cases taken
    next => cases taken
  | call t =>
    simp only [step] at taken
    split at taken
    next => cases taken
    next =>
      cases taken
      exact .threads
  | acquire t =>
    simp only [step] at taken
    split at taken
    next =>
      split at taken
      next file rest front =>
        cases taken
        exact .acquired front
      next =>
        split at taken
        all_goals
          cases taken
          exact .threads
    next => cases taken
  | spurious t =>
    simp only [step] at taken
    split at taken
    next =>
      cases taken
      exact .threads
    next => cases taken
  | spuriousWorker =>
    simp only [step] at taken
    split at taken
    next asleep =>
      cases taken
      exact .woken asleep
    next => cases taken
  | shutdown =>
    cases taken
    exact .down

@[simp] theorem notifyWorker_poolSize (s : SharedPool) : s.notifyWorker.poolSize = s.poolSize := by
  unfold notifyWorker
  split <;> rfl

@[simp] theorem notifyWorker_pool (s : SharedPool) : s.notifyWorker.pool = s.pool := by
  unfold notifyWorker
  split <;> rfl

@[simp] theorem notifyWorker_nextId (s : SharedPool) : s.notifyWorker.nextId = s.nextId := by
  unfold notifyWorker
  split <;> rfl

@[simp] theorem notifyWorker_shutdown (s : SharedPool) : s.notifyWorker.shutdown = s.shutdown := by
  unfold notifyWorker
  split <;> rfl

@[simp] theorem notifyWorker_acquired (s : SharedPool) : s.notifyWorker.acquired = s.acquired := by
  unfold notifyWorker
  split <;> rfl

theorem notifyWorker_worker (s : SharedPool) :
    s.notifyWorker.worker = s.worker ∧ s.worker ≠ .asleep ∨ s.notifyWorker.worker = .testing ∧ s.worker = .asleep := by
  unfold notifyWorker
  split
  next asleep => exact .inr ⟨rfl, asleep⟩
  next awake => exact .inl ⟨rfl, awake⟩

/-- The phase of the worker as the store sees it, where a wait is one step. -/
def WorkerMatches : WorkerPhase → WorkerPc → Prop
  | .testing, pc | .asleep, pc => pc = .waiting
  | .needed, pc => pc = .needed
  | .created file, pc => ∃ id, pc = .created id ∧ file.path = fileName id
  | .returned, _ => True

/-- A state of the threads stands for a pool of the store. -/
structure Refines (s : SharedPool) (p : FilePool) : Prop where
  poolSize : p.poolSize = s.poolSize
  pool : s.pool.map (·.path) = p.pool.map fileName
  nextId : p.nextId = s.nextId.toNat
  worker : WorkerMatches s.worker p.worker

theorem Refines.notified {s : SharedPool} {p : FilePool} (refines : Refines s p) : Refines s.notifyWorker p := by
  refine ⟨?_, ?_, ?_, ?_⟩
  · rw [notifyWorker_poolSize, refines.poolSize]
  · rw [notifyWorker_pool, refines.pool]
  · rw [notifyWorker_nextId, refines.nextId]
  · rcases notifyWorker_worker s with ⟨same, -⟩ | ⟨testing, asleep⟩
    · exact same ▸ refines.worker
    · have waiting := refines.worker
      rw [asleep] at waiting
      rw [testing]
      exact waiting

theorem nextId_succ {n : UInt64} (room : n.toNat + 1 < 2 ^ 64) : (n + 1).toNat = n.toNat + 1 := by
  rw [UInt64.toNat_add]
  exact Nat.mod_eq_of_lt room

/-- As long as the counter does not wrap and no shutdown has begun, a step of
the threads is one of the store's pool, or none of them. -/
theorem Refines.step {s s' : SharedPool} {p : FilePool} {e : SharedPoolEvent} (refines : Refines s p)
    (taken : s.step e = some s') (up : s'.shutdown = false) (room : NoWrap s e) :
    ∃ p', Refines s' p' ∧ ((p' = p ∨ p.Moves none p') ∧ s'.acquired = s.acquired ∨
      ∃ id file, p.Moves (some id) p' ∧ file.path = fileName id ∧ s'.acquired = s.acquired ++ [file]) := by
  have atWorker := refines.worker
  cases step_cases taken with
  | threads => exact ⟨p, ⟨refines.poolSize, refines.pool, refines.nextId, refines.worker⟩, .inl ⟨.inl rfl, rfl⟩⟩
  | returned down =>
    rw [down] at up
    cases up
  | needed testing free =>
    rw [testing] at atWorker
    have waiting : p.worker = .waiting := atWorker
    have size : p.pool.length = s.pool.length := by simpa using (congrArg List.length refines.pool).symm
    refine ⟨{ p with worker := .needed }, ⟨refines.poolSize, refines.pool, refines.nextId, rfl⟩,
      .inl ⟨.inr ⟨.check, ∅, ∅, ?_⟩, rfl⟩⟩
    rw [FilePool.replenish, if_pos ⟨waiting, by rw [size, refines.poolSize]; exact free⟩]
  | slept testing =>
    rw [testing] at atWorker
    exact ⟨p, ⟨refines.poolSize, refines.pool, refines.nextId, atWorker⟩, .inl ⟨.inl rfl, rfl⟩⟩
  | created needed =>
    rw [needed] at atWorker
    have ready : p.worker = .needed ∧ p.nextId + 1 < 2 ^ 64 := ⟨atWorker, refines.nextId ▸ room⟩
    obtain ⟨dir', opened⟩ : ∃ dir', FilePool.openFile ∅ (fileName p.nextId) p.preAllocationSize true = some dir' := by
      unfold FilePool.openFile
      split
      · exact ⟨_, rfl⟩
      · exact ⟨_, rfl⟩
    refine ⟨{ p with nextId := p.nextId + 1, worker := .created p.nextId }, ⟨refines.poolSize, refines.pool, ?_, ?_⟩,
      .inl ⟨.inr ⟨.create true true, ∅, dir', ?_⟩, rfl⟩⟩
    · simp only [nextId_succ room, refines.nextId]
    · exact ⟨p.nextId, rfl, by rw [refines.nextId]⟩
    · simp only [FilePool.replenish, if_pos ready, opened, if_true, Option.map_some]
  | closed needed =>
    rw [needed] at atWorker
    have ready : p.worker = .needed ∧ p.nextId + 1 < 2 ^ 64 := ⟨atWorker, refines.nextId ▸ room⟩
    refine ⟨{ p with nextId := p.nextId + 1, worker := .waiting }, ⟨refines.poolSize, refines.pool, ?_, rfl⟩,
      .inl ⟨.inr ⟨.create false false, ∅, ∅, ?_⟩, rfl⟩⟩
    · simp only [nextId_succ room, refines.nextId]
    · simp only [FilePool.replenish, if_pos ready, Bool.false_eq_true, and_false, if_false]
  | @inserted woken file calling sleepers made =>
    rw [made] at atWorker
    obtain ⟨id, created, path⟩ := atWorker
    refine ⟨{ p with pool := p.pool ++ [id], worker := .waiting }, ⟨refines.poolSize, ?_, refines.nextId, rfl⟩,
      .inl ⟨.inr ⟨.insert, ∅, ∅, ?_⟩, rfl⟩⟩
    · simp [refines.pool, path]
    · rw [FilePool.replenish, created]
  | @acquired t file rest calling front =>
    have files := refines.pool
    rw [front, List.map_cons] at files
    obtain ⟨id, ids, queue, path, behind⟩ := List.map_eq_cons_iff.mp files.symm
    refine ⟨{ p with pool := ids }, ?_, .inr ⟨id, file, ?_, path.symm, ?_⟩⟩
    · exact Refines.notified ⟨refines.poolSize, behind.symm, refines.nextId, refines.worker⟩
    · rw [FilePool.Moves, FilePool.acquire, queue]
    · rw [notifyWorker_acquired]
  | woken asleep =>
    rw [asleep] at atWorker
    exact ⟨p, ⟨refines.poolSize, refines.pool, refines.nextId, atWorker⟩, .inl ⟨.inl rfl, rfl⟩⟩
  | down =>
    rw [notifyWorker_shutdown] at up
    cases up

theorem shutdown_of_step {s s' : SharedPool} {e : SharedPoolEvent} (taken : s.step e = some s')
    (up : s'.shutdown = false) :
    s.shutdown = false := by
  cases step_cases taken with
  | threads | needed | slept | created | closed | inserted | woken => exact up
  | returned => exact up
  | acquired => simpa using up
  | down =>
    rw [notifyWorker_shutdown] at up
    cases up

/-- Each run of the threads up to a shutdown is a run of the store's pool that hands out the same files. -/
theorem refines_of_run {poolSize : Nat} {startId : UInt64} {trace : List SharedPoolEvent} {s : SharedPool}
    (run : Run (Allowed step NoWrap) (start poolSize startId) trace s) (up : s.shutdown = false)
    (preAllocationSize : Nat) :
    ∃ labels p, Run FilePool.Moves (FilePool.new poolSize startId.toNat preAllocationSize) labels p ∧ Refines s p ∧
      s.acquired.map (·.path) = (labels.filterMap id).map fileName := by
  refine run.invariant (P := fun _ s => s.shutdown = false → ∃ labels p,
    Run FilePool.Moves (FilePool.new poolSize startId.toNat preAllocationSize) labels p ∧ Refines s p ∧
      s.acquired.map (·.path) = (labels.filterMap id).map fileName)
    (fun _ => ⟨[], _, .start, ⟨rfl, rfl, rfl, rfl⟩, rfl⟩) ?_ up
  rintro trace s e s' - before ⟨room, taken⟩ up
  obtain ⟨labels, p, previous, refines, handed⟩ := before (shutdown_of_step taken up)
  obtain ⟨p', refines', silent | ⟨file, path, front, isFile, grown⟩⟩ := refines.step taken up room
  · obtain ⟨same | moved, kept⟩ := silent
    · exact ⟨labels, p', same ▸ previous, refines', kept ▸ handed⟩
    · refine ⟨labels ++ [none], p', .step previous moved, refines', ?_⟩
      rw [kept, handed, List.filterMap_snoc]
      simp
  · refine ⟨labels ++ [some file], p', .step previous front, refines', ?_⟩
    rw [grown, List.map_append, handed, List.filterMap_snoc]
    simp [isFile]

end SharedPool

end LSMIO
